import PaqusNetwork.Mempool.Built

namespace PaqusNetwork

variable {hashes : BTreeMap TransactionHash Unit}
  {transactions : List SignedProtocolTransaction} {block : Block} {error : MempoolError}
  {incomingSize : Nat} {u : Unit} {evicted : Mempool}

def encodedSize {F : Type} (paqus : Paqus F) (transaction : SignedProtocolTransaction) : Nat :=
  match paqus.codec.transactionBytes transaction with
  | .ok bytes => bytes.length
  | .error _ => 0

def signerState (transaction : SignedProtocolTransaction) : Address × Hash :=
  (transaction.signer, protocolLastState transaction)

namespace Mempool

open Effect Numeric

variable {F : Type} (paqus : Paqus F)

def without (pool : Mempool) (hash : TransactionHash) (transaction : SignedProtocolTransaction) :
    Mempool :=
  { pool with
    transactions := pool.transactions.erase hash
    insertedAt := pool.insertedAt.erase hash
    totalBytes := pool.totalBytes - encodedSize paqus transaction
    bySignerState := pool.bySignerState.erase (signerState transaction)
    reservedCoins := (redeemCoinIds transaction).foldl
      (fun coins coinId => if coins[coinId]? = some hash then coins.erase coinId else coins)
      pool.reservedCoins }

def added (pool : Mempool) (now : Nat) (hash : TransactionHash) (transaction : SignedProtocolTransaction) : Mempool :=
  { pool with
    reservedCoins := (redeemCoinIds transaction).foldl (fun coins coinId => coins.insert coinId hash)
      pool.reservedCoins
    bySignerState := pool.bySignerState.insert (signerState transaction) hash
    transactions := pool.transactions.insert hash transaction
    insertedAt := pool.insertedAt.insert hash now
    totalBytes := saturatingAdd pool.totalBytes (encodedSize paqus transaction) }

variable {pool : Mempool}

section Remove

variable {paqus} {hash : TransactionHash} {transaction : SignedProtocolTransaction}

theorem remove_absent (h : pool.transactions[hash]? = none) : remove paqus hash pool = .ok none pool := by
  unfold remove
  rw [get_bind, h]
  rfl

theorem remove_found (h : pool.transactions[hash]? = some transaction) (hencoded : Encoded paqus hash transaction) :
    remove paqus hash pool = .ok (some transaction) (pool.without paqus hash transaction) := by
  obtain ⟨_, bytes, hbytes⟩ := hencoded
  have hsize : encodedSize paqus transaction = bytes.length := by simp [encodedSize, hbytes]
  unfold remove
  rw [get_bind, h]
  simp only
  rw [modify_bind, hbytes, liftExcept_ok, pure_bind, modify_bind]
  simp only [without, hsize]
  rfl

theorem remove_ok (h : pool.Every (Encoded paqus)) (hash : TransactionHash) :
    ∃ found next, remove paqus hash pool = .ok found next ∧ next.Every fun other transaction =>
      pool.transactions[other]? = some transaction ∧ other ≠ hash := by
  cases hfound : pool.transactions[hash]? with
  | none =>
    refine ⟨_, _, remove_absent hfound, fun other transaction hother => ⟨hother, ?_⟩⟩
    rintro rfl
    cases hfound.symm.trans hother
  | some transaction =>
    refine ⟨_, _, remove_found hfound (h hash transaction hfound), fun other transaction hother => ?_⟩
    simp only [without, Std.ExtTreeMap.getElem?_erase, compare_eq_iff_eq] at hother
    split at hother
    · cases hother
    next hne => exact ⟨hother, fun heq => hne heq.symm⟩

theorem removeAll_ok (h : pool.Every (Encoded paqus)) (hashes : List TransactionHash) :
    ∃ next, removeAll paqus hashes pool = .ok () next ∧ next.Every fun hash transaction =>
      pool.transactions[hash]? = some transaction ∧ hash ∉ hashes := by
  induction hashes generalizing pool with
  | nil => exact ⟨pool, rfl, fun hash transaction hfound => ⟨hfound, by simp⟩⟩
  | cons first rest ih =>
    obtain ⟨_, middle, hremove, hmiddle⟩ := remove_ok h first
    obtain ⟨next, hnext, hevery⟩ := ih fun hash transaction hfound =>
      h hash transaction (hmiddle hash transaction hfound).1
    refine ⟨next, by rw [removeAll, bind_ok (discard_ok hremove), hnext], fun hash transaction hkept => ?_⟩
    obtain ⟨hfound, hrest⟩ := hevery hash transaction hkept
    obtain ⟨hpooled, hne⟩ := hmiddle hash transaction hfound
    exact ⟨hpooled, by simp [hne, hrest]⟩

theorem confirmedHashes_ok
    (h : ∀ transaction ∈ transactions, ∃ hash, paqus.codec.transactionHash transaction = .ok hash) :
    ∃ hashes, confirmedHashes paqus transactions = .ok hashes := by
  induction transactions with
  | nil => exact ⟨∅, rfl⟩
  | cons transaction rest ih =>
    obtain ⟨hash, hhash⟩ := h transaction (by simp)
    obtain ⟨hashes, hhashes⟩ := ih fun other ho => h other (by simp [ho])
    exact ⟨hashes.insert hash (), by simp only [confirmedHashes, hhash, hhashes]⟩

theorem confirmedHashes_mem (h : confirmedHashes paqus transactions = .ok hashes)
    (hmem : transaction ∈ transactions) (hhash : paqus.codec.transactionHash transaction = .ok hash) :
    hash ∈ hashes := by
  induction transactions generalizing hashes with
  | nil => cases hmem
  | cons first rest ih =>
    unfold confirmedHashes at h
    split at h
    next => cases h
    next firstHash hfirst =>
    split at h
    next => cases h
    next others hrest =>
      cases h
      rw [Std.ExtTreeMap.mem_insert]
      rcases List.mem_cons.mp hmem with rfl | hmem
      · cases hhash.symm.trans hfirst
        exact .inl (compare_eq_iff_eq.mpr rfl)
      · exact .inr (ih hrest hmem)

theorem removeConfirmed_ok (h : pool.Every (Encoded paqus))
    (hhash : ∀ transaction ∈ block.transactions, ∃ hash, paqus.codec.transactionHash transaction = .ok hash) :
    ∃ next, removeConfirmed paqus block pool = .ok () next ∧ next.Every fun hash transaction =>
      pool.transactions[hash]? = some transaction ∧ transaction ∉ block.transactions := by
  obtain ⟨hashes, hhashes⟩ := confirmedHashes_ok hhash
  obtain ⟨next, hnext, hevery⟩ := removeAll_ok h hashes.keys
  refine ⟨next, by rw [removeConfirmed, hhashes, liftExcept_ok, pure_bind, hnext], fun hash transaction hkept => ?_⟩
  obtain ⟨hpooled, hother⟩ := hevery hash transaction hkept
  refine ⟨hpooled, fun hmem => hother ?_⟩
  rw [Std.ExtTreeMap.mem_keys]
  exact confirmedHashes_mem hhashes hmem (h hash transaction hpooled).1

end Remove

/-- What `insert_validated` checks before it makes room for the transaction. -/
structure Vetted (pool : Mempool) (transaction : SignedProtocolTransaction) (hash : TransactionHash) :
    Prop where
  encoded : Encoded paqus hash transaction
  size_le : encodedSize paqus transaction ≤ pool.config.maxBytes
  outputs : blockMinerOutputCount transaction ≤ 1
  fresh : pool.transactions[hash]? = none
  unused : pool.bySignerState[signerState transaction]? = none

/-- What it checks once there is room. -/
structure Acceptable (ledger : Ledger) (pool : Mempool) (transaction : SignedProtocolTransaction) :
    Prop where
  free : ∀ coin ∈ redeemCoinIds transaction, pool.reservedCoins[coin]? = none
  applies : ∃ staged, applyPending paqus (nextHeight ledger) ledger
    (sortPending paqus (pool.values ++ [transaction])) = .ok staged

/-- The outcomes of `insert_validated`. -/
inductive Insertion (now : Nat) (ledger : Ledger) (transaction : SignedProtocolTransaction)
    (pool : Mempool) : EStateM.Result MempoolError Mempool TransactionHash → Prop
  | refused {error : MempoolError} (other : error ≠ .duplicateTransaction)
      (early : ∀ hash, Encoded paqus hash transaction →
        ¬(encodedSize paqus transaction ≤ pool.config.maxBytes ∧ blockMinerOutputCount transaction ≤ 1)) :
      Insertion now ledger transaction pool (.error error pool)
  | duplicate {hash : TransactionHash} (encoded : Encoded paqus hash transaction)
      (size_le : encodedSize paqus transaction ≤ pool.config.maxBytes)
      (outputs : blockMinerOutputCount transaction ≤ 1)
      (known : pool.transactions[hash]? ≠ none ∨ pool.bySignerState[signerState transaction]? ≠ none) :
      Insertion now ledger transaction pool (.error .duplicateTransaction pool)
  | crowded {error : MempoolError} {hash : TransactionHash} {evicted : Mempool}
      (other : error ≠ .duplicateTransaction)
      (vetted : pool.Vetted paqus transaction hash)
      (evicting : evictForCapacity paqus transaction (encodedSize paqus transaction) pool =
        .error error evicted) : Insertion now ledger transaction pool (.error error evicted)
  | conflicting {error : MempoolError} {hash : TransactionHash} {evicted : Mempool}
      (other : error ≠ .duplicateTransaction)
      (vetted : pool.Vetted paqus transaction hash)
      (evicting : evictForCapacity paqus transaction (encodedSize paqus transaction) pool = .ok () evicted)
      (unacceptable : ¬evicted.Acceptable paqus ledger transaction) :
      Insertion now ledger transaction pool (.error error evicted)
  | inserted {hash : TransactionHash} {evicted : Mempool}
      (vetted : pool.Vetted paqus transaction hash)
      (evicting : evictForCapacity paqus transaction (encodedSize paqus transaction) pool = .ok () evicted)
      (acceptable : evicted.Acceptable paqus ledger transaction) :
      Insertion now ledger transaction pool (.ok hash (evicted.added paqus now hash transaction))

variable {paqus} {entry : TransactionHash → SignedProtocolTransaction → Prop} {transaction : SignedProtocolTransaction}

theorem minerBountyRate_error (h : minerBountyRate paqus transaction = .error error) :
    error ≠ .duplicateTransaction := by
  unfold minerBountyRate at h
  split at h
  · cases h
  · cases h
    simp

theorem remove_errs (hash : TransactionHash) : Errs (· ≠ .duplicateTransaction) (remove paqus hash) := by
  unfold remove
  refine Errs.get.bind fun pool => ?_
  split
  · exact Errs.pure _
  · refine (Errs.modify _).bind fun _ => ?_
    refine (Errs.liftExcept (by simp) _).bind fun bytes => ?_
    exact (Errs.modify _).bind fun _ => Errs.pure _

theorem evictLoop_errs (incomingRate incomingSize turns : Nat) :
    Errs (· ≠ .duplicateTransaction) (evictLoop paqus incomingRate incomingSize turns) := by
  induction turns with
  | zero => exact Errs.throw (by simp)
  | succ turns ih =>
    refine Errs.bind ?_ fun evicted => ?_
    · unfold evictTurn
      refine Errs.get.bind fun pool => ?_
      split
      · split
        · exact Errs.throw (by simp)
        · refine (Errs.ensure (by simp) _).bind fun _ => ?_
          exact (Errs.discard (remove_errs _)).bind fun _ => Errs.pure _
      · exact Errs.pure _
    · cases evicted with
      | true => exact ih
      | false => exact Errs.pure _

theorem evictForCapacity_errs (incoming : SignedProtocolTransaction) (incomingSize : Nat) :
    Errs (· ≠ .duplicateTransaction) (evictForCapacity paqus incoming incomingSize) := by
  unfold evictForCapacity
  cases hrate : minerBountyRate paqus incoming with
  | error error =>
    intro pool error' evicted h
    cases h
    exact minerBountyRate_error hrate
  | ok rate =>
    exact (Errs.pure rate).bind fun _ => Errs.get.bind fun _ => evictLoop_errs _ _ _

theorem applyPending_error {height : Nat} {staged : Ledger} {pending : List SignedProtocolTransaction}
    (h : applyPending paqus height staged pending = .error error) :
    error ≠ .duplicateTransaction := by
  induction pending generalizing staged with
  | nil => cases h
  | cons transaction rest ih =>
    unfold applyPending at h
    split at h
    next => exact ih h
    next happly =>
      cases h
      rintro rfl
      cases transaction with
      | batchTransfer transfer =>
        simp only [applyExtension] at happly
        cases hrun : paqus.ledger.applySignedTransactionAt staged transfer height <;>
          simp [hrun] at happly
      | qcash transaction =>
        simp only [applyExtension] at happly
        cases hrun : paqus.ledger.applySignedQCashTransaction staged transaction height <;>
          simp [hrun] at happly

variable (paqus) in
theorem insertValidated_cases (now : Nat) (ledger : Ledger) (transaction : SignedProtocolTransaction) (pool : Mempool) :
    Insertion paqus now ledger transaction pool (insertValidated paqus now ledger transaction pool) := by
  unfold insertValidated
  cases hbytes : paqus.codec.transactionBytes transaction with
  | error error =>
    refine .refused (by simp) fun hash h => ?_
    obtain ⟨_, bytes, hok⟩ := h
    rw [hbytes] at hok
    cases hok
  | ok bytes =>
    have hsize : bytes.length = encodedSize paqus transaction := by simp [encodedSize, hbytes]
    rw [liftExcept_ok, pure_bind, get_bind, hsize]
    by_cases hfits : encodedSize paqus transaction ≤ pool.config.maxBytes
    case neg =>
      simp only [hfits, decide_false]
      exact .refused (by simp) fun _ _ h => hfits h.1
    simp only [hfits, decide_true]
    rw [ensure_true, pure_bind]
    cases hhash : paqus.codec.transactionHash transaction with
    | error error =>
      refine .refused (by simp) fun hash h => ?_
      cases hhash.symm.trans h.1
    | ok hash =>
      rw [liftExcept_ok, pure_bind]
      have hencoded : Encoded paqus hash transaction := ⟨hhash, bytes, hbytes⟩
      by_cases houtputs : blockMinerOutputCount transaction ≤ 1
      case neg =>
        simp only [houtputs, decide_false]
        exact .refused (by simp) fun _ _ h => houtputs h.2
      simp only [houtputs, decide_true]
      rw [ensure_true, pure_bind, get_bind]
      have hknown : (pool.transactions.contains hash ||
          pool.bySignerState.contains (transaction.signer, protocolLastState transaction)) = true ↔
            pool.transactions[hash]? ≠ none ∨ pool.bySignerState[signerState transaction]? ≠ none := by
        simp only [Bool.or_eq_true, Std.ExtTreeMap.contains_eq_isSome_getElem?, Option.isSome_iff_ne_none]
        rfl
      by_cases hdup : pool.transactions[hash]? ≠ none ∨ pool.bySignerState[signerState transaction]? ≠ none
      case pos =>
        rw [hknown.mpr hdup]
        exact .duplicate hencoded hfits houtputs hdup
      rw [Bool.eq_false_of_not_eq_true (mt hknown.mp hdup), Bool.not_false, ensure_true, pure_bind]
      simp only [ne_eq, not_or, not_not] at hdup
      have hvetted : pool.Vetted paqus transaction hash := ⟨hencoded, hfits, houtputs, hdup.1, hdup.2⟩
      cases hevict : evictForCapacity paqus transaction (encodedSize paqus transaction) pool with
      | error error evicted =>
        rw [bind_error hevict]
        exact .crowded (evictForCapacity_errs _ _ _ _ _ hevict) hvetted hevict
      | ok _ evicted =>
        rw [bind_ok hevict, get_bind]
        by_cases hfree : (redeemCoinIds transaction).any (evicted.reservedCoins.contains ·)
        case pos =>
          rw [hfree]
          refine .conflicting (by simp) hvetted hevict fun h => ?_
          obtain ⟨coin, hcoin, hheld⟩ := List.any_eq_true.mp hfree
          rw [Std.ExtTreeMap.contains_eq_isSome_getElem?, h.free coin hcoin] at hheld
          cases hheld
        rw [Bool.eq_false_of_not_eq_true hfree, Bool.not_false, ensure_true, pure_bind]
        cases happly : applyPending paqus (nextHeight ledger) ledger
            (sortPending paqus (evicted.values ++ [transaction])) with
        | error error =>
          refine .conflicting (applyPending_error happly) hvetted hevict fun h => ?_
          obtain ⟨staged, hstaged⟩ := h.applies
          rw [happly] at hstaged
          cases hstaged
        | ok staged =>
          refine .inserted hvetted hevict ⟨fun coin hcoin => ?_, staged, happly⟩
          rw [Bool.not_eq_true, List.any_eq_false] at hfree
          have hheld := hfree coin hcoin
          rw [Std.ExtTreeMap.contains_eq_isSome_getElem?] at hheld
          simpa using hheld

/-- What holds of every pooled transaction still holds after an insertion when it holds of the inserted one. -/
theorem insertValidated_every {now : Nat} {ledger : Ledger} (hpool : pool.Every entry)
    (hadded : ∀ {hash evicted}, pool.Vetted paqus transaction hash →
      evictForCapacity paqus transaction (encodedSize paqus transaction) pool = .ok () evicted →
      evicted.Acceptable paqus ledger transaction → entry hash transaction) :
    (state (insertValidated paqus now ledger transaction pool)).Every entry := by
  have hcases := insertValidated_cases paqus now ledger transaction pool
  have hevicted := @evictForCapacity_keeps F paqus _ remove_keeps transaction (encodedSize paqus transaction) pool hpool
  generalize insertValidated paqus now ledger transaction pool = result at hcases ⊢
  cases hcases with
  | refused _ _ => exact hpool
  | duplicate _ _ _ _ => exact hpool
  | crowded _ _ hevict => rwa [hevict] at hevicted
  | conflicting _ _ hevict _ => rwa [hevict] at hevicted
  | inserted hvetted hevict hacceptable =>
    rw [hevict] at hevicted
    exact hevicted.insert (hadded hvetted hevict hacceptable)

theorem Step.every {ledger : Ledger} {next : Mempool} (h : Step paqus ledger pool next) (hpool : pool.Every entry)
    (hadded : ∀ {transaction hash} {evicted : Mempool}, pool.Vetted paqus transaction hash →
      evicted.Acceptable paqus ledger transaction → entry hash transaction) : next.Every entry := by
  cases h with
  | inserted now transaction => exact insertValidated_every hpool fun hvetted _ => hadded hvetted
  | removed hash => exact remove_keeps hash _ hpool
  | evicted now => exact evictByPolicy_keeps remove_keeps now _ hpool
  | confirmed block => exact removeConfirmed_keeps remove_keeps block _ hpool

theorem Built.encoded (h : Built paqus pool) : pool.Every (Encoded paqus) := by
  induction h with
  | withConfig config =>
    intro hash transaction hfound
    simp [Mempool.withConfig] at hfound
  | step before step ih => exact step.every ih fun hvetted _ => hvetted.encoded

theorem evictLoop_room {incomingRate turns : Nat}
    (h : evictLoop paqus incomingRate incomingSize turns pool = .ok u evicted) :
    evicted.isFullFor incomingSize = false := by
  induction turns generalizing pool with
  | zero => cases h
  | succ turns ih =>
    unfold evictLoop at h
    obtain ⟨again, middle, hturn, hrest⟩ := bind_eq_ok.mp h
    cases again with
    | true => exact ih hrest
    | false =>
      cases hrest
      unfold evictTurn at hturn
      rw [get_bind] at hturn
      by_cases hfull : pool.isFullFor incomingSize
      · rw [if_pos hfull] at hturn
        cases hvictim : pool.lowestFeeCandidate paqus with
        | none => rw [hvictim] at hturn; cases hturn
        | some victim =>
          rw [hvictim] at hturn
          obtain ⟨_, _, _, hturn⟩ := bind_eq_ok.mp hturn
          obtain ⟨_, _, _, hturn⟩ := bind_eq_ok.mp hturn
          cases hturn
      · rw [if_neg hfull] at hturn
        cases hturn
        exact Bool.eq_false_of_not_eq_true hfull

theorem evictForCapacity_room {incoming : SignedProtocolTransaction}
    (h : evictForCapacity paqus incoming incomingSize pool = .ok u evicted) :
    evicted.isFullFor incomingSize = false := by
  obtain ⟨rate, middle, _, hrest⟩ := bind_eq_ok.mp h
  rw [get_bind] at hrest
  exact evictLoop_room hrest

end Mempool

end PaqusNetwork
