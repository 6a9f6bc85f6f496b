import PaqusNetwork.Mempool

namespace PaqusNetwork.Mempool

open Effect

variable {F : Type} {paqus : Paqus F} {pool : Mempool} {transaction : SignedProtocolTransaction} {ledger : Ledger}

def Every (entry : TransactionHash → SignedProtocolTransaction → Prop) (pool : Mempool) : Prop :=
  ∀ (hash : TransactionHash) (transaction : SignedProtocolTransaction),
    pool.transactions[hash]? = some transaction → entry hash transaction

theorem mem_values :
    transaction ∈ pool.values ↔ ∃ hash : TransactionHash, pool.transactions[hash]? = some transaction := by
  unfold values
  rw [List.mem_map]
  constructor
  · rintro ⟨⟨hash, other⟩, hmem, rfl⟩
    exact ⟨hash, Std.ExtTreeMap.mem_toList_iff_getElem?_eq_some.mp hmem⟩
  · rintro ⟨hash, hfound⟩
    exact ⟨(hash, transaction), Std.ExtTreeMap.mem_toList_iff_getElem?_eq_some.mpr hfound, rfl⟩

section Every

variable {entry : TransactionHash → SignedProtocolTransaction → Prop}

theorem Every.erase (h : pool.Every entry) (key : TransactionHash) :
    ∀ (hash : TransactionHash) (transaction : SignedProtocolTransaction),
      (pool.transactions.erase key)[hash]? = some transaction → entry hash transaction := by
  intro hash transaction hfound
  rw [Std.ExtTreeMap.getElem?_erase] at hfound
  split at hfound
  · cases hfound
  · exact h hash transaction hfound

theorem Every.insert (h : pool.Every entry) {key : TransactionHash}
    {added : SignedProtocolTransaction} (hadded : entry key added) :
    ∀ (hash : TransactionHash) (transaction : SignedProtocolTransaction),
      (pool.transactions.insert key added)[hash]? = some transaction → entry hash transaction := by
  intro hash transaction hfound
  rw [Std.ExtTreeMap.getElem?_insert] at hfound
  split at hfound
  next heq =>
    cases hfound
    cases compare_eq_iff_eq.mp heq
    exact hadded
  next => exact h hash transaction hfound

theorem remove_keeps (hash : TransactionHash) : Keeps (Every entry) (remove paqus hash) := by
  unfold remove
  refine Keeps.get.bind fun pool => ?_
  split
  · exact Keeps.pure _
  · refine Keeps.bind (Yields.modify fun _ h => h.erase hash) fun _ => ?_
    refine Keeps.bind_liftExcept fun bytes _ => ?_
    exact Keeps.bind (Yields.modify fun _ h => h) fun _ => Keeps.pure _

end Every

section Removals

variable {I : Mempool → Prop} (hremove : ∀ hash, Keeps I (remove paqus hash))

include hremove

theorem removeAll_keeps (hashes : List TransactionHash) : Keeps I (removeAll paqus hashes) := by
  induction hashes with
  | nil => exact Keeps.pure _
  | cons hash rest ih => exact Keeps.bind (Yields.discard (hremove hash)) fun _ => ih

theorem evictTurn_keeps (incomingRate incomingSize : Nat) : Keeps I (evictTurn paqus incomingRate incomingSize) := by
  unfold evictTurn
  refine Keeps.get.bind fun pool => ?_
  split
  · split
    · exact Keeps.throw _
    · refine (Keeps.ensure _ _).bind fun _ => ?_
      exact Keeps.bind (Yields.discard (hremove _)) fun _ => Keeps.pure _
  · exact Keeps.pure _

theorem evictLoop_keeps (incomingRate incomingSize turns : Nat) :
    Keeps I (evictLoop paqus incomingRate incomingSize turns) := by
  induction turns with
  | zero => exact Keeps.throw _
  | succ turns ih =>
    refine (evictTurn_keeps hremove _ _).bind fun evicted => ?_
    cases evicted with
    | true => exact ih
    | false => exact Keeps.pure _

theorem evictForCapacity_keeps (incoming : SignedProtocolTransaction) (incomingSize : Nat) :
    Keeps I (evictForCapacity paqus incoming incomingSize) :=
  Keeps.bind_liftExcept fun _ _ =>
    Keeps.get.bind fun _ => evictLoop_keeps hremove _ _ _

theorem evictByPolicy_keeps (now : Nat) : Keeps I (evictByPolicy paqus now) := by
  unfold evictByPolicy
  refine Keeps.get.bind fun pool => ?_
  split
  · exact Keeps.pure _
  · exact (removeAll_keeps hremove _).bind fun _ => Keeps.pure _

theorem removeConfirmed_keeps (block : Block) : Keeps I (removeConfirmed paqus block) :=
  Keeps.bind_liftExcept fun _ _ => removeAll_keeps hremove _

end Removals

variable (paqus)

/-- What one operation on the pool can leave, whatever it returns. -/
inductive Step (ledger : Ledger) (pool : Mempool) : Mempool → Prop
  | inserted (now : Nat) (transaction : SignedProtocolTransaction) :
      Step ledger pool (state (insertValidated paqus now ledger transaction pool))
  | removed (hash : TransactionHash) : Step ledger pool (state (remove paqus hash pool))
  | evicted (now : Nat) : Step ledger pool (state (evictByPolicy paqus now pool))
  | confirmed (block : Block) : Step ledger pool (state (removeConfirmed paqus block pool))

/-- The pools of a program that only calls the operations of the pool. -/
inductive Built : Mempool → Prop
  | withConfig (config : MempoolConfig) : Built (withConfig config)
  | step {pool next : Mempool} {ledger : Ledger} (before : Built pool) (step : Step paqus ledger pool next) :
      Built next

variable {paqus}

def Encoded (paqus : Paqus F) (hash : TransactionHash) (transaction : SignedProtocolTransaction) : Prop :=
  paqus.codec.transactionHash transaction = .ok hash ∧ ∃ bytes, paqus.codec.transactionBytes transaction = .ok bytes

end PaqusNetwork.Mempool
