import PaqusNetwork.Mempool.Displace
import PaqusNetwork.Quantile

namespace PaqusNetwork

open Numeric Quantile

structure FeeMarketSnapshot where
  minRelayFeeRate : Nat
  configuredMarketFeeRate : Nat
  recommendedFeeRate : Nat
  pressureBps : Nat
  transactionCount : Nat
  totalBytes : Nat
  maxTransactions : Nat
  maxBytes : Nat
  nextBlockClearingFeeRate : Nat
  medianFeeRate : Nat
  p75FeeRate : Nat
  p90FeeRate : Nat
  deriving DecidableEq, Repr

def dynamicMarketFeeMaxMultiplier : Nat := 8

def occupancyBps (used capacity : Nat) : Nat :=
  if capacity = 0 then 10000 else min (used * 10000 / capacity) 10000

/-- The rate of the first entry, a rate with a size, at which the sizes add up to the target; the last
rate when they do not get there. -/
def rateAt (target : Nat) : Nat → Nat → List (Nat × Nat) → Nat
  | _, lastRate, [] => lastRate
  | accumulated, _, (rate, virtualSize) :: rest =>
    let accumulated := saturatingAdd accumulated virtualSize
    if target ≤ accumulated then rate else rateAt target accumulated rate rest

def weightedClearingRate : List (Nat × Nat) → Nat → Option Nat
  | [], _ => none
  | first :: rest, targetWeight => some (rateAt targetWeight 0 first.1 (first :: rest))

def weightedPercentileRate (entries : List (Nat × Nat)) (percentile : Nat) : Option Nat :=
  match entries with
  | [] => none
  | first :: rest =>
    let total := (first :: rest).foldl (fun total entry => saturatingAdd total entry.2) 0
    if total = 0 then some first.1
    else some (rateAt (max ((total * percentile + 99) / 100) 1) 0 first.1 (first :: rest))

namespace Mempool

variable {F : Type} (paqus : Paqus F) (maxBlockWeight : Nat) (pool : Mempool)

def mempoolPressureBps : Nat :=
  max (occupancyBps pool.totalBytes pool.config.maxBytes)
    (occupancyBps pool.transactions.size pool.config.maxTransactions)

/-- The rates and sizes of the transactions that have both, the highest rate first. -/
def feeEntries : List (Nat × Nat) :=
  (pool.transactions.toList.filterMap fun (_, transaction) =>
    match paqus.codec.virtualSize transaction, minerBountyRate paqus transaction with
    | .ok virtualSize, .ok rate => some (rate, virtualSize)
    | _, _ => none).mergeSort fun left right => right.1 ≤ left.1

def feeMarketSnapshot : FeeMarketSnapshot :=
  let baseRate := max pool.config.marketFee pool.config.minRelayFee
  let pressureBps := pool.mempoolPressureBps
  let premium := saturatingMul (saturatingMul baseRate dynamicMarketFeeMaxMultiplier) pressureBps / 10000
  let pressureRate := saturatingAdd baseRate premium
  let entries := pool.feeEntries paqus
  let nextBlockClearingFeeRate := (weightedClearingRate entries maxBlockWeight).getD baseRate
  let p75FeeRate := (weightedPercentileRate entries 75).getD baseRate
  { minRelayFeeRate := pool.config.minRelayFee
    configuredMarketFeeRate := pool.config.marketFee
    recommendedFeeRate := max (max baseRate pressureRate) (max nextBlockClearingFeeRate p75FeeRate)
    pressureBps
    transactionCount := pool.transactions.size
    totalBytes := pool.totalBytes
    maxTransactions := pool.config.maxTransactions
    maxBytes := pool.config.maxBytes
    nextBlockClearingFeeRate
    medianFeeRate := (weightedPercentileRate entries 50).getD baseRate
    p75FeeRate
    p90FeeRate := (weightedPercentileRate entries 90).getD baseRate }

def dynamicMarketFeeRate : Nat := (pool.feeMarketSnapshot paqus maxBlockWeight).recommendedFeeRate

end Mempool

theorem rateAt_split {target accumulated lastRate : Nat} {entries : List (Nat × Nat)}
    (hfits : accumulated + total entries ≤ u64Max) (hbefore : accumulated < target)
    (hreached : target ≤ accumulated + total entries) :
    ∃ earlier entry later, entries = earlier ++ entry :: later ∧
      rateAt target accumulated lastRate entries = entry.1 ∧ accumulated + total earlier < target ∧
      target ≤ accumulated + total earlier + entry.2 := by
  induction entries generalizing accumulated lastRate with
  | nil =>
    have hnone : total ([] : List (Nat × Nat)) = 0 := rfl
    omega
  | cons entry rest ih =>
    rw [total_cons] at hfits hreached
    have hadd : saturatingAdd accumulated entry.2 = accumulated + entry.2 := saturatingAdd_eq (by omega)
    simp only [rateAt, hadd]
    by_cases hstop : target ≤ accumulated + entry.2
    · rw [if_pos hstop]
      exact ⟨[], entry, rest, rfl, rfl, hbefore, hstop⟩
    · rw [if_neg hstop]
      obtain ⟨earlier, found, later, rfl, hrate, hlow, hhigh⟩ :=
        @ih (accumulated + entry.2) entry.1 (by omega) (by omega) (by omega)
      refine ⟨entry :: earlier, found, later, rfl, hrate, ?_, ?_⟩
      · rw [total_cons]
        omega
      · rw [total_cons]
        omega

theorem rateAt_mem (target accumulated lastRate : Nat) (entries : List (Nat × Nat)) :
    rateAt target accumulated lastRate entries = lastRate ∨
      ∃ entry ∈ entries, rateAt target accumulated lastRate entries = entry.1 := by
  induction entries generalizing accumulated lastRate with
  | nil => exact .inl rfl
  | cons entry rest ih =>
    simp only [rateAt]
    split
    · exact .inr ⟨entry, List.mem_cons_self, rfl⟩
    · rcases ih (saturatingAdd accumulated entry.2) entry.1 with hlast | ⟨other, hother, hrate⟩
      · exact .inr ⟨entry, List.mem_cons_self, hlast⟩
      · exact .inr ⟨other, List.mem_cons_of_mem _ hother, hrate⟩

theorem foldl_saturatingAdd {entries : List (Nat × Nat)} {start : Nat} (h : start + total entries ≤ u64Max) :
    entries.foldl (fun sum entry => saturatingAdd sum entry.2) start = start + total entries := by
  induction entries generalizing start with
  | nil => rfl
  | cons entry rest ih =>
    rw [total_cons] at h ⊢
    rw [List.foldl_cons, saturatingAdd_eq (by omega), ih (by omega)]
    omega

variable {percent : Nat}

theorem weightedPercentileRate_upper {entries : List (Nat × Nat)}
    (hsorted : entries.Pairwise fun left right => right.1 ≤ left.1) (hpositive : 0 < total entries)
    (hfits : total entries ≤ u64Max) (hpercent : 0 < percent) (hmax : percent ≤ 100) :
    ∃ rate, weightedPercentileRate entries percent = some rate ∧ Upper percent entries rate := by
  cases entries with
  | nil => exact absurd hpositive (Nat.lt_irrefl 0)
  | cons first rest =>
    generalize hentries : first :: rest = entries at hsorted hpositive hfits ⊢
    have hsum : entries.foldl (fun sum entry => saturatingAdd sum entry.2) 0 = total entries := by
      rw [foldl_saturatingAdd (by omega), Nat.zero_add]
    have hproduct : 0 < total entries * percent := Nat.mul_pos hpositive hpercent
    have hshare : total entries * percent ≤ total entries * 100 := Nat.mul_le_mul_left _ hmax
    obtain ⟨earlier, entry, later, hsplit, hrate, hlow, hhigh⟩ := @rateAt_split
      (max ((total entries * percent + 99) / 100) 1) 0 first.1 entries (by omega) (by omega) (by omega)
    refine ⟨entry.1, ?_, ?_⟩
    · rw [← hrate, ← hentries, weightedPercentileRate, hentries, hsum, if_neg (by omega)]
    · have hbefore : 100 * total earlier < percent * total entries := by
        rw [Nat.mul_comm percent]
        omega
      have hreached : percent * total entries ≤ 100 * (total earlier + entry.2) := by
        rw [Nat.mul_comm percent]
        omega
      rw [hsplit] at hsorted hbefore hreached ⊢
      exact Upper.of_split hsorted hbefore hreached

namespace Mempool

variable {F : Type} (paqus : Paqus F) {pool : Mempool}

def virtualSizeOf (transaction : SignedProtocolTransaction) : Nat :=
  (paqus.codec.virtualSize transaction).toOption.getD 0

def rates (pool : Mempool) : List (Nat × Nat) :=
  pool.values.map fun transaction => (rateOf paqus transaction, virtualSizeOf paqus transaction)

variable {paqus}

theorem feeEntries_eq (hsized : ∀ transaction ∈ pool.values, ∃ size, paqus.codec.virtualSize transaction = .ok size) :
    pool.feeEntries paqus = (pool.rates paqus).mergeSort fun left right => right.1 ≤ left.1 := by
  unfold feeEntries
  congr 1
  rw [rates, values, List.map_map, ← List.filterMap_eq_map]
  refine List.filterMap_congr fun entry hentry => ?_
  obtain ⟨size, hsize⟩ := hsized entry.2 (List.mem_map_of_mem hentry)
  have hrate : minerBountyRate paqus entry.2 =
      .ok (feeRate (paqus.rules.blockMinerBounty entry.2) size) := by
    unfold minerBountyRate
    rw [hsize]
  simp [hsize, hrate, rateOf, virtualSizeOf, Except.toOption]

theorem falling_mergeSort (entries : List (Nat × Nat)) :
    (entries.mergeSort fun left right => right.1 ≤ left.1).Pairwise fun left right => right.1 ≤ left.1 := by
  have hsorted := @List.pairwise_mergeSort (Nat × Nat) (fun left right => decide (right.1 ≤ left.1))
    (fun a b c hab hbc => by simp only [decide_eq_true_eq] at hab hbc ⊢; omega)
    (fun a b => by simp only [Bool.or_eq_true, decide_eq_true_eq]; omega) entries
  exact hsorted.imp fun h => of_decide_eq_true h

theorem total_rates_pos (hne : pool.values ≠ []) (hsizes : ∀ transaction ∈ pool.values,
    ∃ size, paqus.codec.virtualSize transaction = .ok size ∧ 0 < size) : 0 < total (pool.rates paqus) := by
  unfold rates
  cases hvalues : pool.values with
  | nil => exact absurd hvalues hne
  | cons transaction rest =>
    obtain ⟨size, hsize, hpositive⟩ := hsizes transaction (by simp [hvalues])
    have hvirtual : virtualSizeOf paqus transaction = size := by
      rw [virtualSizeOf, hsize]
      rfl
    rw [List.map_cons, total_cons, hvirtual]
    omega

theorem reported_upper (hne : pool.values ≠ [])
    (hsizes : ∀ transaction ∈ pool.values, ∃ size, paqus.codec.virtualSize transaction = .ok size ∧ 0 < size)
    (hfits : total (pool.rates paqus) ≤ u64Max) (hpercent : 0 < percent) (hmax : percent ≤ 100) (otherwise : Nat) :
    Upper percent (pool.rates paqus) ((weightedPercentileRate (pool.feeEntries paqus) percent).getD otherwise) := by
  rw [feeEntries_eq fun transaction hmem => (hsizes transaction hmem).imp fun _ h => h.1]
  have hperm := List.mergeSort_perm (pool.rates paqus) fun left right => right.1 ≤ left.1
  have htotal := total_perm hperm
  obtain ⟨rate, hrate, hupper⟩ := weightedPercentileRate_upper (falling_mergeSort (pool.rates paqus))
    (htotal ▸ total_rates_pos hne hsizes) (htotal ▸ hfits) hpercent hmax
  rw [hrate]
  exact hupper.perm hperm

/-- The reported rates are the percentiles of the pooled rates exactly when nine tenths of the pooled size pay
at most one rate and nine tenths at least that rate. -/
theorem feeMarketSnapshot_percentiles_iff {pool : Mempool} (hne : pool.values ≠ [])
    (hsizes : ∀ transaction ∈ pool.values, ∃ size, paqus.codec.virtualSize transaction = .ok size ∧ 0 < size)
    (hfits : total (pool.rates paqus) ≤ u64Max) (maxBlockWeight : Nat) :
    let snapshot := pool.feeMarketSnapshot paqus maxBlockWeight
    (((Lower 50 (pool.rates paqus) snapshot.medianFeeRate ∧ Lower 75 (pool.rates paqus) snapshot.p75FeeRate ∧
        Lower 90 (pool.rates paqus) snapshot.p90FeeRate) ∧
        snapshot.medianFeeRate ≤ snapshot.p75FeeRate ∧ snapshot.p75FeeRate ≤ snapshot.p90FeeRate) ↔
      ∃ transaction ∈ pool.values,
        90 * total (pool.rates paqus) ≤ 100 * atMost (pool.rates paqus) (rateOf paqus transaction) ∧
        90 * total (pool.rates paqus) ≤ 100 * atLeast (pool.rates paqus) (rateOf paqus transaction)) ∧
    max pool.config.marketFee pool.config.minRelayFee ≤ snapshot.recommendedFeeRate ∧
    snapshot.nextBlockClearingFeeRate ≤ snapshot.recommendedFeeRate ∧
    snapshot.p75FeeRate ≤ snapshot.recommendedFeeRate := by
  intro snapshot
  have hmedian : Upper 50 (pool.rates paqus) snapshot.medianFeeRate :=
    reported_upper hne hsizes hfits (by omega) (by omega) _
  have hquartile : Upper 75 (pool.rates paqus) snapshot.p75FeeRate :=
    reported_upper hne hsizes hfits (by omega) (by omega) _
  have hhighest : Upper 90 (pool.rates paqus) snapshot.p90FeeRate :=
    reported_upper hne hsizes hfits (by omega) (by omega) _
  refine ⟨⟨?_, ?_⟩, ?_, ?_, ?_⟩
  · rintro ⟨⟨_, _, hlower⟩, _, _⟩
    obtain ⟨entry, hentry, hrate⟩ := hhighest.mem
    obtain ⟨transaction, hmem, rfl⟩ := List.mem_map.mp hentry
    refine ⟨transaction, hmem, ?_⟩
    rw [show rateOf paqus transaction = snapshot.p90FeeRate from hrate]
    exact ⟨hlower.reaches, hhighest.reaches⟩
  · rintro ⟨transaction, hmem, hbelow, habove⟩
    have hpositive : 0 < total (pool.rates paqus) := total_rates_pos hne hsizes
    have hrate : ∃ entry ∈ pool.rates paqus, entry.1 = rateOf paqus transaction := ⟨_, List.mem_map_of_mem hmem, rfl⟩
    have hlow := hmedian.lower_of_middle hpositive hrate hbelow habove (by omega) (by omega)
    have hmiddle := hquartile.lower_of_middle hpositive hrate hbelow habove (by omega) (by omega)
    have hhigh := hhighest.lower_of_middle hpositive hrate hbelow habove (by omega) (by omega)
    exact ⟨⟨hlow, hmiddle, hhigh⟩, hlow.mono hmiddle (by omega), hmiddle.mono hhigh (by omega)⟩
  · exact (Nat.le_max_left _ _).trans (Nat.le_max_left _ _)
  · exact (Nat.le_max_left _ _).trans (Nat.le_max_right _ _)
  · exact (Nat.le_max_right _ _).trans (Nat.le_max_right _ _)

end Mempool

namespace Reference

open Mempool

def poolAfter (config : MempoolConfig) (transactions : List SignedProtocolTransaction) : Mempool :=
  transactions.foldl (fun pool transaction =>
    PoolCall.after (protocol 2) pool (.insertValidated 0 Tip.genesis.ledger transaction)) (withConfig config)

def evenPool : Mempool := poolAfter .default [tipping 501 1 0 8, tipping 502 2 0 8, tipping 503 3 0 8]

theorem feeMarketSnapshot_percentiles_even :
    let snapshot := evenPool.feeMarketSnapshot (protocol 2) 1000
    evenPool.rates (protocol 2) = [(2, 4), (2, 4), (2, 4)] ∧
      (Lower 50 (evenPool.rates (protocol 2)) snapshot.medianFeeRate ∧
        snapshot.medianFeeRate ≤ snapshot.p75FeeRate ∧ snapshot.p75FeeRate ≤ snapshot.p90FeeRate) := by
  have hvalues : evenPool.values = [tipping 501 1 0 8, tipping 502 2 0 8, tipping 503 3 0 8] := by decide +kernel
  have hsizes : ∀ transaction ∈ evenPool.values,
      ∃ size, (protocol 2).codec.virtualSize transaction = .ok size ∧ 0 < size := by
    intro transaction hmem
    rw [hvalues] at hmem
    simp only [List.mem_cons, List.not_mem_nil, or_false] at hmem
    rcases hmem with rfl | rfl | rfl <;> exact ⟨4, rfl, by decide⟩
  have hholds := (feeMarketSnapshot_percentiles_iff (by decide +kernel) hsizes (by decide +kernel) 1000).1.mpr
    ⟨tipping 502 2 0 8, by decide +kernel, by decide +kernel, by decide +kernel⟩
  exact ⟨by decide +kernel, hholds.1.1, hholds.2⟩

def pricedPool : Mempool := poolAfter .default [tipping 501 1 0 8, tipping 502 2 0 40]

theorem feeEntries_pricedPool : pricedPool.feeEntries (protocol 2) = [(10, 4), (2, 4)] := by
  have hvalues : pricedPool.values = [tipping 501 1 0 8, tipping 502 2 0 40] := by decide +kernel
  have hrates : pricedPool.rates (protocol 2) = [(2, 4), (10, 4)] := by decide +kernel
  rw [feeEntries_eq, hrates]
  · simp [List.mergeSort]
  · intro transaction hmem
    rw [hvalues] at hmem
    rcases List.mem_pair.mp hmem with rfl | rfl
    · exact ⟨4, rfl⟩
    · exact ⟨4, rfl⟩

/-- Half of the pooled size pays 2, and yet 10 is reported as the median, with 2 as the third quartile. -/
theorem feeMarketSnapshot_not_percentiles :
    let snapshot := pricedPool.feeMarketSnapshot (protocol 2) 1000
    (pricedPool.rates (protocol 2) = [(2, 4), (10, 4)] ∧ snapshot.medianFeeRate = 10 ∧ snapshot.p75FeeRate = 2) ∧
      ¬ Lower 50 (pricedPool.rates (protocol 2)) snapshot.medianFeeRate ∧
      ¬ Lower 75 (pricedPool.rates (protocol 2)) snapshot.p75FeeRate ∧
      ¬ snapshot.medianFeeRate ≤ snapshot.p75FeeRate := by
  intro snapshot
  have hrates : pricedPool.rates (protocol 2) = [(2, 4), (10, 4)] := by decide +kernel
  have hmedian : snapshot.medianFeeRate = 10 := by
    simp only [snapshot, feeMarketSnapshot, feeEntries_pricedPool]
    decide
  have hquartile : snapshot.p75FeeRate = 2 := by
    simp only [snapshot, feeMarketSnapshot, feeEntries_pricedPool]
    decide
  rw [hrates, hmedian, hquartile]
  refine ⟨⟨rfl, rfl, rfl⟩, fun h => ?_, fun h => ?_, by decide⟩
  · exact absurd (h.least (2, 4) (by decide) (by decide)) (by decide)
  · exact absurd h.reaches (by decide)

end Reference

end PaqusNetwork
