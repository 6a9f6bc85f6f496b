import Mathlib.Algebra.Order.BigOperators.Group.List
import Mathlib.Algebra.Order.Group.Nat
import PaqusNetwork.Greedy
import PaqusNetwork.Mempool.Insert
import PaqusNetwork.OrderedMap
import PaqusNetwork.Protocol.Laws
import PaqusNetwork.Sorting

namespace PaqusNetwork

open Effect Numeric Std

variable {transaction : SignedProtocolTransaction} {hash : TransactionHash} {pool : Mempool} {F : Type}

namespace Mempool

open Effect Numeric

variable (paqus : Paqus F)

def pooledBytes (pool : Mempool) : Nat := OrderedMap.total (encodedSize paqus) pool.transactions

structure Consistent (pool : Mempool) : Prop where
  encoded : pool.Every (Encoded paqus)
  bytes : pool.totalBytes = pool.pooledBytes paqus
  bytes_le : pool.totalBytes ≤ pool.config.maxBytes
  count_le : pool.transactions.size ≤ pool.config.maxTransactions
  signerStates : OrderedMap.Indexes (fun transaction => [signerState transaction]) pool.bySignerState pool.transactions
  coins : OrderedMap.Indexes redeemCoinIds pool.reservedCoins pool.transactions
  insertedAt : ∀ hash : TransactionHash, hash ∈ pool.insertedAt ↔ hash ∈ pool.transactions

theorem consistent_withConfig (config : MempoolConfig) : (withConfig config).Consistent paqus where
  encoded hash transaction h := by simp [withConfig] at h
  bytes := by simp [withConfig, pooledBytes]
  bytes_le := Nat.zero_le _
  count_le := by simp [withConfig]
  signerStates := OrderedMap.Indexes.empty _
  coins := OrderedMap.Indexes.empty _
  insertedAt hash := by simp [withConfig]

section Remove

variable {paqus}

theorem Consistent.without (h : pool.Consistent paqus) (hfound : pool.transactions[hash]? = some transaction) :
    (pool.without paqus hash transaction).Consistent paqus := by
  have htotal := OrderedMap.total_erase (encodedSize paqus) hfound
  have hbytes := h.bytes
  have hbytes_le := h.bytes_le
  unfold pooledBytes at hbytes
  refine ⟨h.encoded.erase hash, ?_, ?_, ?_, ?_, ?_, ?_⟩
  · show pool.totalBytes - encodedSize paqus transaction =
      OrderedMap.total (encodedSize paqus) (pool.transactions.erase hash)
    omega
  · show pool.totalBytes - encodedSize paqus transaction ≤ pool.config.maxBytes
    omega
  · have hcount := h.count_le
    show (pool.transactions.erase hash).size ≤ pool.config.maxTransactions
    rw [ExtTreeMap.size_erase]
    split <;> omega
  · refine h.signerStates.erase hfound fun key => ?_
    show (pool.bySignerState.erase (signerState transaction))[key]? = _
    rw [OrderedMap.getElem?_erase]
    simp only [List.mem_singleton, eq_comm]
  · refine h.coins.erase hfound fun coin => ?_
    refine (OrderedMap.getElem?_foldl_release _ _ _ _).trans ?_
    by_cases hcoin : coin ∈ redeemCoinIds transaction
    · have howner : pool.reservedCoins[coin]? = some hash := (h.coins coin hash).mpr ⟨transaction, hfound, hcoin⟩
      rw [if_pos ⟨hcoin, howner⟩, if_pos hcoin]
    · rw [if_neg fun hboth => hcoin hboth.1, if_neg hcoin]
  · intro other
    show other ∈ pool.insertedAt.erase hash ↔ other ∈ pool.transactions.erase hash
    rw [ExtTreeMap.mem_erase, ExtTreeMap.mem_erase, h.insertedAt other]

theorem remove_consistent (hash : TransactionHash) : Keeps (Consistent paqus) (remove paqus hash) := by
  intro pool h
  cases hfound : pool.transactions[hash]? with
  | none =>
    rw [remove_absent hfound]
    exact h
  | some transaction =>
    rw [remove_found hfound (h.encoded hash transaction hfound)]
    exact h.without hfound

end Remove

section Insertion

variable {paqus}

/-- The first pool is left of the second one by removals. -/
structure Within (pool whole : Mempool) : Prop where
  config : pool.config = whole.config
  bytes : pool.totalBytes ≤ whole.totalBytes
  sub : ∀ (hash : TransactionHash) (transaction : SignedProtocolTransaction),
    pool.transactions[hash]? = some transaction → whole.transactions[hash]? = some transaction

theorem Within.refl (pool : Mempool) : pool.Within pool := ⟨rfl, Nat.le_refl _, fun _ _ h => h⟩

variable {pool whole : Mempool}

theorem Within.without (h : pool.Within whole) (hash : TransactionHash)
    (transaction : SignedProtocolTransaction) : (pool.without paqus hash transaction).Within whole := by
  refine ⟨h.config, Nat.le_trans (Nat.sub_le _ _) h.bytes, fun other found hother => h.sub other found ?_⟩
  simp only [Mempool.without, OrderedMap.getElem?_erase] at hother
  split at hother
  · cases hother
  · exact hother

theorem remove_within (whole : Mempool) (hash : TransactionHash) :
    Keeps (fun pool => pool.Consistent paqus ∧ pool.Within whole) (remove paqus hash) := by
  rintro pool ⟨hconsistent, hwithin⟩
  refine ⟨remove_consistent hash pool hconsistent, ?_⟩
  cases hfound : pool.transactions[hash]? with
  | none =>
    rw [remove_absent hfound]
    exact hwithin
  | some transaction =>
    rw [remove_found hfound (hconsistent.encoded hash transaction hfound)]
    exact hwithin.without hash transaction

theorem evictForCapacity_within {incoming : SignedProtocolTransaction} {incomingSize : Nat}
    {evicted : Mempool} {u : Unit} (h : pool.Consistent paqus)
    (hevict : evictForCapacity paqus incoming incomingSize pool = .ok u evicted) :
    evicted.Consistent paqus ∧ evicted.Within pool := by
  have hkept := evictForCapacity_keeps (remove_within pool) incoming incomingSize pool ⟨h, .refl pool⟩
  rwa [hevict] at hkept

theorem Within.signerState_unused (hwithin : pool.Within whole)
    (hpool : pool.Consistent paqus) (hwhole : whole.Consistent paqus) {key : Address × Hash}
    (h : whole.bySignerState[key]? = none) : pool.bySignerState[key]? = none := by
  cases hheld : pool.bySignerState[key]? with
  | none => rfl
  | some hash =>
    obtain ⟨transaction, hfound, hkey⟩ := (hpool.signerStates key hash).mp hheld
    have hwhole' := (hwhole.signerStates key hash).mpr ⟨transaction, hwithin.sub _ _ hfound, hkey⟩
    rw [h] at hwhole'
    cases hwhole'

theorem Within.fresh (hwithin : pool.Within whole)
    (h : whole.transactions[hash]? = none) : pool.transactions[hash]? = none := by
  cases hfound : pool.transactions[hash]? with
  | none => rfl
  | some transaction =>
    have hwhole := hwithin.sub hash transaction hfound
    rw [h] at hwhole
    cases hwhole

variable {now : Nat}

theorem Consistent.added (h : pool.Consistent paqus) (hencoded : Encoded paqus hash transaction)
    (hroom : pool.isFullFor (encodedSize paqus transaction) = false)
    (hsum : pool.config.maxBytes < u64Max ∨ pool.totalBytes + encodedSize paqus transaction ≤ u64Max)
    (hfresh : pool.transactions[hash]? = none) (hunused : pool.bySignerState[signerState transaction]? = none)
    (hfree : ∀ coin ∈ redeemCoinIds transaction, pool.reservedCoins[coin]? = none) :
    (pool.added paqus now hash transaction).Consistent paqus := by
  simp only [isFullFor, saturatingAdd, ge_iff_le, gt_iff_lt, Bool.or_eq_false_iff,
    decide_eq_false_iff_not, Nat.not_le, Nat.not_lt] at hroom
  have hexact : saturatingAdd pool.totalBytes (encodedSize paqus transaction) =
      pool.totalBytes + encodedSize paqus transaction := by
    unfold saturatingAdd
    omega
  have htotal : OrderedMap.total (encodedSize paqus) (pool.transactions.insert hash transaction) =
      encodedSize paqus transaction + OrderedMap.total (encodedSize paqus) pool.transactions :=
    OrderedMap.total_insert _ hfresh
  have hbytes := h.bytes
  unfold pooledBytes at hbytes
  refine ⟨h.encoded.insert hencoded, ?_, ?_, ?_, ?_, ?_, ?_⟩
  · show saturatingAdd pool.totalBytes (encodedSize paqus transaction) =
      OrderedMap.total (encodedSize paqus) (pool.transactions.insert hash transaction)
    omega
  · show saturatingAdd pool.totalBytes (encodedSize paqus transaction) ≤ pool.config.maxBytes
    exact hroom.2
  · show (pool.transactions.insert hash transaction).size ≤ pool.config.maxTransactions
    rw [ExtTreeMap.size_insert]
    split <;> omega
  · exact h.signerStates.insert hfresh fun key hkey => by
      rw [List.mem_singleton.mp hkey]
      exact hunused
  · exact h.coins.insert hfresh hfree
  · intro other
    show other ∈ pool.insertedAt.insert hash now ↔ other ∈ pool.transactions.insert hash transaction
    rw [ExtTreeMap.mem_insert, ExtTreeMap.mem_insert, h.insertedAt other]

def Addressable (paqus : Paqus F) (pool : Mempool) (transaction : SignedProtocolTransaction) : Prop :=
  pool.config.maxBytes < u64Max ∨ pool.pooledBytes paqus + encodedSize paqus transaction ≤ u64Max

theorem insertValidated_consistent {ledger : Ledger}
    (h : pool.Consistent paqus) (hmemory : pool.Addressable paqus transaction) :
    (state (insertValidated paqus now ledger transaction pool)).Consistent paqus ∧
      (state (insertValidated paqus now ledger transaction pool)).config = pool.config := by
  have hcases := insertValidated_cases paqus now ledger transaction pool
  generalize insertValidated paqus now ledger transaction pool = result at hcases ⊢
  cases hcases with
  | refused _ _ => exact ⟨h, rfl⟩
  | duplicate _ _ _ _ => exact ⟨h, rfl⟩
  | crowded _ _ hevict =>
    have hkept := evictForCapacity_keeps (remove_within pool) transaction
      (encodedSize paqus transaction) pool ⟨h, .refl pool⟩
    rw [hevict] at hkept
    exact ⟨hkept.1, hkept.2.config⟩
  | conflicting _ _ hevict _ =>
    obtain ⟨hevicted, hwithin⟩ := evictForCapacity_within h hevict
    exact ⟨hevicted, hwithin.config⟩
  | inserted hvetted hevict hacceptable =>
    obtain ⟨hevicted, hwithin⟩ := evictForCapacity_within h hevict
    have hbytes := hwithin.bytes
    have htotal := h.bytes
    refine ⟨?_, hwithin.config⟩
    refine hevicted.added hvetted.encoded (evictForCapacity_room hevict) ?_
      (hwithin.fresh hvetted.fresh) (hwithin.signerState_unused hevicted h hvetted.unused) hacceptable.free
    rw [hwithin.config]
    rcases hmemory with hlimit | hsum
    · exact .inl hlimit
    · exact .inr (by omega)

end Insertion

end Mempool

variable {paqus : Paqus F} {pending : List SignedProtocolTransaction}

instance pendingLe_total : Std.Total (pendingLe paqus) where
  total left right := by
    unfold pendingLe
    rcases Nat.lt_trichotomy left.signer right.signer with hlt | heq | hlt
    · exact .inl (.inl hlt)
    · cases paqus.codec.transactionHash left with
      | error _ => exact .inl (.inr ⟨heq, trivial⟩)
      | ok l =>
        cases paqus.codec.transactionHash right with
        | error _ => exact .inr (.inr ⟨heq.symm, trivial⟩)
        | ok r => exact (Nat.le_total l r).imp (fun h => .inr ⟨heq, h⟩) fun h => .inr ⟨heq.symm, h⟩
    · exact .inr (.inl hlt)

instance pendingLe_trans : IsTrans SignedProtocolTransaction (pendingLe paqus) where
  trans left middle right h h' := by
    unfold pendingLe at h h' ⊢
    rcases h with h | ⟨hsigner, h⟩
    · exact .inl (h'.elim (fun hlt => Nat.lt_trans h hlt) fun heq => heq.1 ▸ h)
    · rcases h' with h' | ⟨hsigner', h'⟩
      · exact .inl (hsigner ▸ h')
      · refine .inr ⟨hsigner.trans hsigner', ?_⟩
        revert h h'
        cases paqus.codec.transactionHash left <;> cases paqus.codec.transactionHash middle <;>
          cases paqus.codec.transactionHash right <;> simp
        exact Nat.le_trans

namespace Mempool

variable (paqus) in
/-- What the pool asks of a transaction by itself. -/
structure Presentable (transaction : SignedProtocolTransaction) : Prop where
  encoded : ∃ hash, Encoded paqus hash transaction
  rated : ∃ rate, minerBountyRate paqus transaction = .ok rate
  outputs : blockMinerOutputCount transaction ≤ 1

variable (paqus) in
structure Roomy (config : MempoolConfig) (transactions : List SignedProtocolTransaction) : Prop where
  count : transactions.length ≤ config.maxTransactions
  bytes : (transactions.map (encodedSize paqus)).sum ≤ config.maxBytes
  word : config.maxBytes ≤ u64Max

variable (paqus) in
/-- Different transactions for which the pool has room, and which apply to the ledger one after the other. -/
structure Admissible (ledger : Ledger) (config : MempoolConfig) (transactions : List SignedProtocolTransaction) :
    Prop where
  roomy : Roomy paqus config transactions
  presentable : ∀ transaction ∈ transactions, Presentable paqus transaction
  hashes : transactions.Pairwise fun first second =>
    paqus.codec.transactionHash first ≠ paqus.codec.transactionHash second
  applies : ∃ staged, applyPending paqus (nextHeight ledger) ledger transactions = .ok staged

variable (paqus) in
structure Holds (config : MempoolConfig) (queued : List SignedProtocolTransaction) (pool : Mempool) :
    Prop where
  consistent : pool.Consistent paqus
  config_eq : pool.config = config
  values_perm : pool.values.Perm queued

variable {config : MempoolConfig}

theorem Roomy.sublist {some all : List SignedProtocolTransaction}
    (h : Roomy paqus config all) (hsub : some.Sublist all) : Roomy paqus config some :=
  ⟨hsub.length_le.trans h.count, ((hsub.map _).sum_le_sum fun _ _ => Nat.zero_le _).trans h.bytes, h.word⟩

section Holds

variable {queued : List SignedProtocolTransaction} (h : pool.Holds paqus config queued)

include h

theorem Holds.mem_iff : transaction ∈ queued ↔ ∃ hash : TransactionHash, pool.transactions[hash]? = some transaction :=
  h.values_perm.mem_iff.symm.trans mem_values

theorem Holds.hashed (hmem : transaction ∈ queued) :
    ∃ hash, paqus.codec.transactionHash transaction = .ok hash ∧
      pool.transactions[hash]? = some transaction := by
  obtain ⟨hash, hfound⟩ := h.mem_iff.mp hmem
  exact ⟨hash, (h.consistent.encoded hash transaction hfound).1, hfound⟩

theorem Holds.fresh_iff (hhash : paqus.codec.transactionHash transaction = .ok hash) :
    pool.transactions[hash]? = none ↔
      ∀ other ∈ queued, paqus.codec.transactionHash other ≠ paqus.codec.transactionHash transaction := by
  constructor
  · intro hnone other hmem heq
    obtain ⟨hash', hother, hfound⟩ := h.hashed hmem
    rw [hother, hhash] at heq
    cases heq
    rw [hnone] at hfound
    cases hfound
  · intro hfresh
    cases hfound : pool.transactions[hash]? with
    | none => rfl
    | some other =>
      have hother := (h.consistent.encoded hash other hfound).1
      exact absurd (hother.trans hhash.symm) (hfresh other (h.mem_iff.mpr ⟨hash, hfound⟩))

theorem Holds.index_iff {κ : Type} [Ord κ] [Std.TransOrd κ] [Std.LawfulEqOrd κ]
    {keys : SignedProtocolTransaction → List κ} {index : BTreeMap κ TransactionHash}
    (hindex : OrderedMap.Indexes keys index pool.transactions) (key : κ) :
    index[key]? = none ↔ ∀ other ∈ queued, key ∉ keys other := by
  constructor
  · intro hnone other hmem hkey
    obtain ⟨hash, _, hfound⟩ := h.hashed hmem
    have hheld := (hindex key hash).mpr ⟨other, hfound, hkey⟩
    rw [hnone] at hheld
    cases hheld
  · intro hfree
    cases hheld : index[key]? with
    | none => rfl
    | some hash =>
      obtain ⟨other, hfound, hkey⟩ := (hindex key hash).mp hheld
      exact absurd hkey (hfree other (h.mem_iff.mpr ⟨hash, hfound⟩))

theorem Holds.size_eq : pool.transactions.size = queued.length := by
  rw [← h.values_perm.length_eq, values, List.length_map, ExtTreeMap.length_toList]

theorem Holds.bytes_eq : pool.totalBytes = (queued.map (encodedSize paqus)).sum := by
  rw [h.consistent.bytes, pooledBytes, OrderedMap.total, ← (h.values_perm.map _).sum_nat, values, List.map_map]
  rfl

theorem Holds.room (hroom : Roomy paqus config (queued ++ [transaction])) :
    pool.isFullFor (encodedSize paqus transaction) = false ∧ pool.totalBytes + encodedSize paqus transaction ≤ u64Max ∧
      encodedSize paqus transaction ≤ pool.config.maxBytes := by
  have hcount := hroom.count
  have hbytes := hroom.bytes
  have hword := hroom.word
  have htotal := h.bytes_eq
  have hsize := h.size_eq
  rw [List.length_append, List.length_singleton] at hcount
  rw [List.map_append, List.sum_append, List.map_singleton, List.sum_singleton] at hbytes
  simp only [isFullFor, saturatingAdd, h.config_eq, ge_iff_le, gt_iff_lt, Bool.or_eq_false_iff,
    decide_eq_false_iff_not, Nat.not_le, Nat.not_lt]
  omega

theorem Holds.added (hroom : Roomy paqus config (queued ++ [transaction])) {now : Nat}
    (hvetted : pool.Vetted paqus transaction hash)
    (hfree : ∀ coin ∈ redeemCoinIds transaction, pool.reservedCoins[coin]? = none) :
    (pool.added paqus now hash transaction).Holds paqus config (queued ++ [transaction]) := by
  obtain ⟨hfits, hword, _⟩ := h.room hroom
  refine ⟨h.consistent.added hvetted.encoded hfits (.inr hword) hvetted.fresh hvetted.unused hfree, h.config_eq, ?_⟩
  have hperm : (pool.transactions.insert hash transaction).toList.Perm
      ((hash, transaction) :: pool.transactions.toList) := OrderedMap.toList_insert_perm hvetted.fresh
  have hvalues : (pool.added paqus now hash transaction).values.Perm (transaction :: pool.values) := hperm.map Prod.snd
  exact hvalues.trans ((h.values_perm.cons transaction).trans (List.perm_append_singleton _ _).symm)

end Holds

theorem evictForCapacity_room_left {size rate : Nat} (hrate : minerBountyRate paqus transaction = .ok rate)
    (hroom : pool.isFullFor size = false) : evictForCapacity paqus transaction size pool = .ok () pool := by
  have hturn : evictTurn paqus rate size pool = .ok false pool := by
    unfold evictTurn
    rw [get_bind, hroom]
    rfl
  unfold evictForCapacity
  rw [hrate, liftExcept_ok, pure_bind, get_bind, evictLoop, bind_ok hturn]
  rfl

theorem Admissible.sublist (activation : ActivationLaws paqus) {ledger : Ledger}
    {some all : List SignedProtocolTransaction} (h : Admissible paqus ledger config all) (hsub : some.Sublist all) :
    Admissible paqus ledger config some :=
  ⟨h.roomy.sublist hsub, fun transaction hmem => h.presentable transaction (hsub.subset hmem),
    h.hashes.sublist hsub, activation.applies_sublist h.applies hsub⟩

/-- The pool takes a transaction that applies after those it holds, in whatever order it replays them. -/
theorem Holds.insertValidated (activation : ActivationLaws paqus) {queued : List SignedProtocolTransaction}
    {ledger : Ledger} (h : pool.Holds paqus config queued)
    (hadmissible : Admissible paqus ledger config (queued ++ [transaction])) (now : Nat) :
    ∃ hash next, insertValidated paqus now ledger transaction pool = .ok hash next ∧
      next.Holds paqus config (queued ++ [transaction]) := by
  obtain ⟨hfits, _, hsize⟩ := h.room hadmissible.roomy
  obtain ⟨⟨hash, hencoded⟩, ⟨rate, hrate⟩, houtputs⟩ := hadmissible.presentable transaction (by simp)
  have hapart : ∀ other ∈ queued, Apart other transaction := fun other hmem =>
    (List.pairwise_append.mp (activation.applies_iff.mp hadmissible.applies).2).2.2 other hmem transaction
      (List.mem_singleton_self _)
  have hfresh : pool.transactions[hash]? = none := (h.fresh_iff hencoded.1).mpr fun other hmem =>
    (List.pairwise_append.mp hadmissible.hashes).2.2 other hmem transaction (List.mem_singleton_self _)
  have hunused : pool.bySignerState[signerState transaction]? = none :=
    (h.index_iff h.consistent.signerStates _).mpr fun other hmem hkey =>
      (hapart other hmem).1 (congrArg Prod.fst (List.mem_singleton.mp hkey)).symm
  have hacceptable : pool.Acceptable paqus ledger transaction := by
    refine ⟨fun coin hcoin => ?_, activation.applies_perm hadmissible.applies ?_⟩
    · exact (h.index_iff h.consistent.coins coin).mpr fun other hmem hreserved =>
        (hapart other hmem).2 hreserved hcoin
    · exact (List.perm_insertionSort _ _).trans (h.values_perm.append_right _)
  have hroom := evictForCapacity_room_left hrate hfits
  have hcases := insertValidated_cases paqus now ledger transaction pool
  generalize Mempool.insertValidated paqus now ledger transaction pool = result at hcases ⊢
  cases hcases with
  | refused _ hearly => exact absurd ⟨hsize, houtputs⟩ (hearly hash hencoded)
  | duplicate hencoded' _ _ hknown =>
    cases hencoded.1.symm.trans hencoded'.1
    exact hknown.elim (absurd hfresh) (absurd hunused)
  | crowded _ _ hevict => cases hroom.symm.trans hevict
  | conflicting _ _ hevict hunacceptable =>
    cases hroom.symm.trans hevict
    exact absurd hacceptable hunacceptable
  | @inserted hash evicted hvet hevict _ =>
    cases hroom.symm.trans hevict
    exact ⟨hash, _, rfl, h.added hadmissible.roomy hvet hacceptable.free⟩

end Mempool

end PaqusNetwork
