import PaqusNetwork.Miner.Candidate

namespace PaqusNetwork

open Effect Mempool Numeric

variable {F : Type} {paqus : Paqus F} {mining : MiningApi} {height minBountyRate limit : Nat}
  {config : MempoolConfig} {pool : Mempool} {ledger : Ledger}

variable (paqus mining height minBountyRate) in
def Eligible (transaction : SignedProtocolTransaction) : Prop :=
  minBountyRate ≤ rateOf paqus transaction ∧ mining.validateAt transaction height = true

instance : DecidablePred (Eligible paqus mining height minBountyRate) := fun _ =>
  inferInstanceAs (Decidable (_ ∧ _))

variable (paqus mining height minBountyRate) in
def offer (staged : Ledger) (transaction : SignedProtocolTransaction) : Option Ledger :=
  if Eligible paqus mining height minBountyRate transaction then
    (applyExtension paqus staged transaction height).toOption
  else none

variable {staged : Ledger} {transaction : SignedProtocolTransaction} {transactions : List SignedProtocolTransaction}

theorem offer_eq_some {next : Ledger} :
    offer paqus mining height minBountyRate staged transaction = some next ↔
      Eligible paqus mining height minBountyRate transaction ∧
        applyExtension paqus staged transaction height = .ok next := by
  unfold offer
  split
  next h => cases applyExtension paqus staged transaction height <;> simp [h, Except.toOption]
  next h => simp [h]

theorem chosen_eq_take (room : Nat) (staged : Ledger) (transactions : List SignedProtocolTransaction) :
    chosen paqus mining height minBountyRate room staged transactions =
      (Greedy.accepted (offer paqus mining height minBountyRate) staged transactions).take room := by
  induction transactions generalizing room staged with
  | nil => simp [Greedy.accepted]
  | cons transaction rest ih =>
    cases room with
    | zero => simp
    | succ room =>
      rw [chosen, Greedy.accepted]
      by_cases heligible : minBountyRate ≤ rateOf paqus transaction ∧ mining.validateAt transaction height = true
      · rw [if_pos heligible, offer, if_pos (show Eligible _ _ _ _ _ from heligible)]
        cases applyExtension paqus staged transaction height with
        | ok next => simp only [Except.toOption, List.take_succ_cons, ih]
        | error error => exact ih _ _
      · rw [if_neg heligible, offer, if_neg (show ¬Eligible _ _ _ _ _ from heligible)]
        exact ih _ _

theorem applyPending_of_offers {last : Ledger}
    (h : transactions.foldlM (offer paqus mining height minBountyRate) staged = some last) :
    applyPending paqus height staged transactions = .ok last ∧
      ∀ transaction ∈ transactions, Eligible paqus mining height minBountyRate transaction := by
  induction transactions generalizing staged with
  | nil =>
    cases h
    exact ⟨rfl, by simp⟩
  | cons transaction rest ih =>
    rw [List.foldlM_cons] at h
    obtain ⟨next, hnext, hrest⟩ := Option.bind_eq_some_iff.mp h
    obtain ⟨heligible, happly⟩ := offer_eq_some.mp hnext
    obtain ⟨happlies, hall⟩ := ih hrest
    refine ⟨?_, List.forall_mem_cons.mpr ⟨heligible, hall⟩⟩
    rw [applyPending, happly]
    exact happlies

theorem offers_take (room : Nat) (staged : Ledger) (transactions : List SignedProtocolTransaction) :
    ∃ last, ((Greedy.accepted (offer paqus mining height minBountyRate) staged transactions).take room).foldlM
      (offer paqus mining height minBountyRate) staged = some last := by
  have hall : (Greedy.accepted (offer paqus mining height minBountyRate) staged transactions).foldlM _ staged = _ :=
    Greedy.foldlM_accepted
  rw [← List.take_append_drop room (Greedy.accepted _ _ _), List.foldlM_append] at hall
  obtain ⟨last, hlast, _⟩ := Option.bind_eq_some_iff.mp hall
  exact ⟨last, hlast⟩

/-- The selection takes different pooled transactions with the rate and valid at the height, which apply in
its order. -/
theorem selectForBlock_applies (h : Reached paqus config pool) (ledger : Ledger) (height limit minBountyRate : Nat) :
    ∃ selected, pool.selectForBlock paqus mining ledger height limit minBountyRate = .ok selected ∧
      selected.length ≤ limit ∧ selected.Nodup ∧
      (∀ transaction ∈ selected, (∃ hash : TransactionHash, pool.transactions[hash]? = some transaction) ∧
        (∃ rate, minerBountyRate paqus transaction = .ok rate ∧ minBountyRate ≤ rate) ∧
        mining.validateAt transaction height = true) ∧
      ∃ staged, applyPending paqus height ledger selected = .ok staged := by
  refine ⟨_, h.selectForBlock_eq ledger, ?_⟩
  have hsub := @chosen_sublist F paqus mining height minBountyRate ledger limit (pool.inOrder paqus)
  obtain ⟨last, hlast⟩ := offers_take limit ledger (pool.inOrder paqus)
  rw [← chosen_eq_take] at hlast
  obtain ⟨happlies, heligible⟩ := applyPending_of_offers hlast
  refine ⟨?_, h.nodup_inOrder.sublist hsub, fun transaction hmem => ?_, last, happlies⟩
  · rw [chosen_eq_take]
    exact List.length_take_le limit _
  · obtain ⟨hash, hfound⟩ := mem_inOrder.mp (hsub.subset hmem)
    obtain ⟨hpays, hvalid⟩ := heligible transaction hmem
    exact ⟨⟨hash, hfound⟩, ⟨_, h.rated.rate_eq hfound, hpays⟩, hvalid⟩

namespace Reference

/-- The first signer's statement has moved on since the pool took the transaction. -/
def movedLedger : Ledger := (Tip.genesis.next 101 1 [transfer 504 1 0 2 5]).ledger

theorem selectForBlock_crowded :
    ∃ selected, crowdedPool.selectForBlock (protocol 2) miningApi movedLedger 2 10 2 = .ok selected ∧
      selected = [sizedTip 503 2 40 5, sizedTip 502 3 10 1] ∧
      ∃ staged, applyPending (protocol 2) 2 movedLedger selected = .ok staged := by
  obtain ⟨selected, hselected, _, _, _, happlies⟩ := selectForBlock_applies crowdedPool_reached movedLedger 2 10 2
  refine ⟨selected, hselected, ?_, happlies⟩
  have hvalue : crowdedPool.selectForBlock (protocol 2) miningApi movedLedger 2 10 2 =
      .ok [sizedTip 503 2 40 5, sizedTip 502 3 10 1] := by decide +kernel
  exact Except.ok.inj (hselected.symm.trans hvalue)

end Reference

namespace Reference

end Reference

variable {rest : List SignedProtocolTransaction} {first : SignedProtocolTransaction} {bound : Nat}

instance selectionLe_total : Std.Total (selectionLe paqus) where
  total left right := by
    unfold selectionLe
    rcases Nat.lt_trichotomy (rateOf paqus right) (rateOf paqus left) with hlt | heq | hgt
    · exact .inl (.inl hlt)
    · rcases pendingLe_total.total left right with hle | hge
      · exact .inl (.inr ⟨heq, hle⟩)
      · exact .inr (.inr ⟨heq.symm, hge⟩)
    · exact .inr (.inl hgt)

instance selectionLe_trans : IsTrans SignedProtocolTransaction (selectionLe paqus) where
  trans first second third := by
    unfold selectionLe
    rintro (hlt | ⟨heq, hle⟩) (hlt' | ⟨heq', hle'⟩)
    · exact .inl (hlt'.trans hlt)
    · exact .inl (heq' ▸ hlt)
    · exact .inl (heq ▸ hlt')
    · exact .inr ⟨heq'.trans heq, pendingLe_trans.trans _ _ _ hle hle'⟩

theorem selectionLe_rate {left right : SignedProtocolTransaction} (h : selectionLe paqus left right) :
    rateOf paqus right ≤ rateOf paqus left := by
  rcases h with hlt | ⟨heq, _⟩
  · exact Nat.le_of_lt hlt
  · exact Nat.le_of_eq heq

namespace Mempool

theorem mem_inOrder_iff : transaction ∈ pool.inOrder paqus ↔ transaction ∈ pool.values := List.mem_insertionSort _

theorem rate_le_of_inOrder (horder : pool.inOrder paqus = first :: rest) (hmem : transaction ∈ pool.values) :
    rateOf paqus transaction ≤ rateOf paqus first := by
  have hsorted : (first :: rest).Pairwise (selectionLe paqus) := horder ▸ List.pairwise_insertionSort _ _
  have hin : transaction ∈ first :: rest := horder ▸ mem_inOrder_iff.mpr hmem
  rcases List.mem_cons.mp hin with rfl | hrest
  · exact Nat.le_refl _
  · exact selectionLe_rate ((List.pairwise_cons.mp hsorted).1 transaction hrest)

def pressureRate (pool : Mempool) : Nat :=
  let baseRate := max pool.config.marketFee pool.config.minRelayFee
  saturatingAdd baseRate
    (saturatingMul (saturatingMul baseRate dynamicMarketFeeMaxMultiplier) pool.mempoolPressureBps / 10000)

theorem mem_feeEntries {entry : Nat × Nat} (h : entry ∈ pool.feeEntries paqus) :
    ∃ transaction ∈ pool.values, rateOf paqus transaction = entry.1 := by
  unfold feeEntries at h
  rw [List.mem_mergeSort, List.mem_filterMap] at h
  obtain ⟨⟨hash, transaction⟩, hpooled, hentry⟩ := h
  refine ⟨transaction, List.mem_map_of_mem hpooled, ?_⟩
  simp only at hentry
  split at hentry
  next rate _ hrate =>
    cases hentry
    exact rateOf_eq hrate
  next => cases hentry

theorem rateAt_le {first : Nat × Nat} {rest : List (Nat × Nat)} (hentries : pool.feeEntries paqus = first :: rest)
    (hbound : ∀ transaction ∈ pool.values, rateOf paqus transaction ≤ bound) (target : Nat) :
    rateAt target 0 first.1 (first :: rest) ≤ bound := by
  have hentry : ∀ entry ∈ first :: rest, entry.1 ≤ bound := by
    intro entry hentry
    obtain ⟨transaction, hmem, hrate⟩ := mem_feeEntries (hentries ▸ hentry)
    exact hrate ▸ hbound transaction hmem
  rcases rateAt_mem target 0 first.1 (first :: rest) with hrate | ⟨entry, hmem, hrate⟩
  · exact hrate ▸ hentry first List.mem_cons_self
  · exact hrate ▸ hentry entry hmem

/-- What is recommended is paid by a transaction that pays the base rate and for the occupancy, when no
other one pays more. -/
theorem dynamicMarketFeeRate_le (hbase : max pool.config.marketFee pool.config.minRelayFee ≤ bound)
    (hpressure : pool.pressureRate ≤ bound)
    (hbound : ∀ transaction ∈ pool.values, rateOf paqus transaction ≤ bound) (maxBlockWeight : Nat) :
    pool.dynamicMarketFeeRate paqus maxBlockWeight ≤ bound := by
  refine Nat.max_le.mpr ⟨Nat.max_le.mpr ⟨hbase, hpressure⟩, Nat.max_le.mpr ⟨?_, ?_⟩⟩
  · cases hentries : pool.feeEntries paqus with
    | nil => exact hbase
    | cons first rest => exact rateAt_le hentries hbound maxBlockWeight
  · cases hentries : pool.feeEntries paqus with
    | nil => exact hbase
    | cons first rest =>
      rw [weightedPercentileRate]
      split
      · obtain ⟨transaction, hmem, hrate⟩ := @mem_feeEntries F paqus pool first (hentries ▸ List.mem_cons_self)
        exact hrate ▸ hbound transaction hmem
      · exact rateAt_le hentries hbound _

theorem pressureRate_le (maxBlockWeight : Nat) : pool.pressureRate ≤ pool.dynamicMarketFeeRate paqus maxBlockWeight :=
  (Nat.le_max_right _ _).trans (Nat.le_max_left _ _)

end Mempool

theorem eligible_of_chosen (h : transaction ∈ chosen paqus mining height minBountyRate limit ledger transactions) :
    Eligible paqus mining height minBountyRate transaction := by
  obtain ⟨last, hlast⟩ := @offers_take F paqus mining height minBountyRate limit ledger transactions
  rw [← chosen_eq_take] at hlast
  exact (applyPending_of_offers hlast).2 transaction h

theorem chosen_ne_nil (hlimit : 0 < limit) (heligible : Eligible paqus mining height minBountyRate first)
    (happlies : applyPending paqus height ledger (first :: rest) = .ok staged) :
    chosen paqus mining height minBountyRate limit ledger (first :: rest) ≠ [] := by
  rw [applyPending] at happlies
  obtain ⟨room, rfl⟩ : ∃ room, limit = room + 1 := ⟨limit - 1, by omega⟩
  rw [chosen, if_pos (by exact heligible)]
  cases happly : applyExtension paqus ledger first height with
  | error error =>
    rw [happly] at happlies
    cases happlies
  | ok next => exact List.cons_ne_nil _ _

/-- A pool of transactions that pay the base rate has something for a block at the recommended rate exactly
when one of them pays the base rate with the premium for the occupancy. -/
theorem selectForBlock_recommended_iff {pool : Mempool} {ledger : Ledger} {limit : Nat}
    (hpays : ∀ transaction ∈ pool.values, ∃ rate, minerBountyRate paqus transaction = .ok rate ∧
      max pool.config.marketFee pool.config.minRelayFee ≤ rate)
    (hvalid : ∀ transaction ∈ pool.values, mining.validateAt transaction (nextHeight ledger) = true)
    (happlies : ∃ staged, applyPending paqus (nextHeight ledger) ledger (pool.inOrder paqus) = .ok staged)
    (hlimit : 0 < limit) (maxBlockWeight : Nat) :
    (∃ selected, pool.selectForBlock paqus mining ledger (nextHeight ledger) limit
        (pool.dynamicMarketFeeRate paqus maxBlockWeight) = .ok selected ∧ selected ≠ []) ↔
      ∃ transaction ∈ pool.values, pool.pressureRate ≤ rateOf paqus transaction := by
  have hrate : ∀ transaction ∈ pool.inOrder paqus, ∃ rate, minerBountyRate paqus transaction = .ok rate :=
    fun transaction hmem => (hpays transaction (mem_inOrder_iff.mp hmem)).imp fun _ h => h.1
  have hselect := @selectPasses_eq F paqus mining (nextHeight ledger)
    (pool.dynamicMarketFeeRate paqus maxBlockWeight) ledger limit _ (pool.inOrder paqus).length hrate
  constructor
  · rintro ⟨selected, hselected, hsome⟩
    obtain rfl := Except.ok.inj (hselect.symm.trans hselected)
    obtain ⟨transaction, hmem⟩ := List.exists_mem_of_ne_nil _ hsome
    have hrecommended := (eligible_of_chosen hmem).1
    exact ⟨transaction, mem_inOrder_iff.mp (chosen_sublist.subset hmem),
      (pressureRate_le maxBlockWeight).trans hrecommended⟩
  · rintro ⟨transaction, hmem, hpressure⟩
    refine ⟨_, hselect, ?_⟩
    obtain ⟨first, rest, horder⟩ := List.exists_cons_of_ne_nil
      (List.ne_nil_of_mem (mem_inOrder_iff.mpr hmem : transaction ∈ pool.inOrder paqus))
    have hfirst : first ∈ pool.values := mem_inOrder_iff.mp (horder ▸ List.mem_cons_self)
    have hmost : ∀ other ∈ pool.values, rateOf paqus other ≤ rateOf paqus first :=
      fun other hother => rate_le_of_inOrder horder hother
    have hbase : max pool.config.marketFee pool.config.minRelayFee ≤ rateOf paqus first := by
      obtain ⟨rate, hok, hbase⟩ := hpays first hfirst
      rwa [rateOf_eq hok]
    have hrecommended : pool.dynamicMarketFeeRate paqus maxBlockWeight ≤ rateOf paqus first :=
      dynamicMarketFeeRate_le hbase (hpressure.trans (hmost transaction hmem)) hmost maxBlockWeight
    obtain ⟨staged, hstaged⟩ := happlies
    rw [horder] at hstaged ⊢
    exact chosen_ne_nil hlimit ⟨hrecommended, hvalid first hfirst⟩ hstaged

namespace Reference

def pricedConfig : MempoolConfig := { smallPool with marketFee := 2 }

def pricedAt (bounty : Nat) : Mempool :=
  PoolCall.after (protocol 2) (withConfig pricedConfig) (.insertValidated 0 Tip.genesis.ledger (tipping 501 1 0 bounty))

theorem selectForBlock_recommended_paid :
    (pricedAt 80).values = [tipping 501 1 0 80] ∧ (pricedAt 80).pressureRate = 18 ∧
      ∃ selected, (pricedAt 80).selectForBlock (protocol 2) miningApi Tip.genesis.ledger
        (nextHeight Tip.genesis.ledger) 10
        ((pricedAt 80).dynamicMarketFeeRate (protocol 2) 1000) = .ok selected ∧
        selected ≠ [] := by
  have hvalues : (pricedAt 80).values = [tipping 501 1 0 80] := by decide +kernel
  refine ⟨hvalues, by decide +kernel, (selectForBlock_recommended_iff ?_ ?_ ?_ (by decide) 1000).mpr ?_⟩
  · rw [hvalues]
    exact List.forall_mem_singleton.mpr ⟨20, by decide +kernel, by decide +kernel⟩
  · rw [hvalues]
    exact List.forall_mem_singleton.mpr rfl
  · exact exists_ok (by decide +kernel)
  · exact ⟨tipping 501 1 0 80, by rw [hvalues]; exact List.mem_singleton_self _, by decide +kernel⟩

/-- A full pool of a transaction that pays the base rate recommends nine times that rate. -/
theorem selectForBlock_recommended_empty :
    (pricedAt 8).values = [tipping 501 1 0 8] ∧ rateOf (protocol 2) (tipping 501 1 0 8) = 2 ∧
      max (pricedAt 8).config.marketFee (pricedAt 8).config.minRelayFee = 2 ∧
      miningApi.validateAt (tipping 501 1 0 8) (nextHeight Tip.genesis.ledger) = true ∧
      (applyPending (protocol 2) (nextHeight Tip.genesis.ledger) Tip.genesis.ledger
        ((pricedAt 8).inOrder (protocol 2))).isOk = true ∧
      (pricedAt 8).dynamicMarketFeeRate (protocol 2) 1000 = 18 ∧
      (pricedAt 8).selectForBlock (protocol 2) miningApi Tip.genesis.ledger (nextHeight Tip.genesis.ledger) 10
        ((pricedAt 8).dynamicMarketFeeRate (protocol 2) 1000) = .ok [] := by
  decide +kernel

end Reference

end PaqusNetwork
