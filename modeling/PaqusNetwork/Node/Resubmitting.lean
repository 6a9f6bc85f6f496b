import PaqusNetwork.Mempool.Consistent
import PaqusNetwork.Node.Recorded
import PaqusNetwork.Reference.Sample

namespace PaqusNetwork

open Effect Numeric

variable {F : Type} {paqus : Paqus F} {issue : RollbackIssue} {node checked : Node F} {verifyProof : Bool}

theorem submitProtocolTransaction_apply (transaction : SignedProtocolTransaction) (node : Node F) :
    submitProtocolTransaction paqus transaction node =
      match Mempool.insertValidated paqus (node.clock node.clockReads) node.ledger transaction node.mempool with
      | .ok hash mempool => .ok hash { node with mempool, clockReads := node.clockReads + 1 }
      | .error error mempool =>
        .error (.mempool error) { node with mempool, clockReads := node.clockReads + 1 } := by
  unfold submitProtocolTransaction onMempool
  rw [get_bind, currentUnixTimestamp_bind, focus]
  cases Mempool.insertValidated paqus (node.clock node.clockReads) node.ledger transaction node.mempool <;> rfl

theorem verifyRollbackIssue_state (issue : RollbackIssue) (node : Node F) :
    ∃ storage, state (verifyRollbackIssue paqus issue node) = { node with storage } := by
  let I : Node F → Prop := fun other => ∃ storage, other = { node with storage }
  have hstorage : ∀ {α : Type} (program : StorageM α), Keeps I (onStorage program : NodeM F α) := by
    intro α program other hother
    obtain ⟨storage, rfl⟩ := hother
    exact ⟨_, by rw [onStorage, state_focus]⟩
  have hverify : Keeps I (verifyRollbackIssue paqus issue) := verifyRollbackIssue_keeps (fun _ => hstorage _) issue
  exact hverify node ⟨node.storage, rfl⟩

variable (paqus) in
/-- The retry of an issue gets to the pool, and what it finds there can be stored. -/
structure Retried (issue : RollbackIssue) (verifyProof : Bool) (node : Node F) : Prop where
  verified : ∃ checked, runIf verifyProof (verifyRollbackIssue paqus issue) node = .ok () checked ∧
    checked.storage.faults checked.storage.calls = none
  absent : canonicalTransactionLocation paqus node.ledger issue.transactionHash = .ok none
  valid : Storage.validateRollbackIssue paqus issue none = .ok ()

variable (paqus) in
/-- The pool does not hold the transaction but holds one of the same signer and state, which the pool
reports as a duplicate too. -/
def Mempool.Shadows (pool : Mempool) (transaction : SignedProtocolTransaction) : Prop :=
  ∃ hash, Encoded paqus hash transaction ∧
    encodedSize paqus transaction ≤ pool.config.maxBytes ∧ blockMinerOutputCount transaction ≤ 1 ∧
    pool.transactions[hash]? = none ∧ pool.bySignerState[signerState transaction]? ≠ none

theorem Mempool.Shadows.duplicate {pool : Mempool} {transaction : SignedProtocolTransaction}
    (h : pool.Shadows paqus transaction) (now : Nat) (ledger : Ledger) :
    insertValidated paqus now ledger transaction pool = .error .duplicateTransaction pool := by
  obtain ⟨hash, hencoded, hsize, houtputs, _, hused⟩ := h
  have hcases := insertValidated_cases paqus now ledger transaction pool
  generalize insertValidated paqus now ledger transaction pool = result at hcases ⊢
  cases hcases with
  | refused _ hearly => exact absurd ⟨hsize, houtputs⟩ (hearly hash hencoded)
  | duplicate _ _ _ _ => rfl
  | crowded _ hvetted _ => exact absurd hvetted.unused hused
  | conflicting _ hvetted _ _ => exact absurd hvetted.unused hused
  | inserted hvetted _ _ => exact absurd hvetted.unused hused

theorem resubmitted_refused {error : MempoolError} (h : error ≠ .duplicateTransaction) :
    (issue.resubmitted paqus (.error (.mempool error))).status = .conflict := by
  unfold RollbackIssue.resubmitted
  split
  next heq => cases heq
  next heq => cases heq; exact absurd rfl h
  next => rfl

theorem runIf_verify_state (h : runIf verifyProof (verifyRollbackIssue paqus issue) node = .ok () checked) :
    ∃ storage, checked = { node with storage } := by
  cases verifyProof with
  | false => cases h; exact ⟨node.storage, rfl⟩
  | true =>
    rw [runIf_true] at h
    obtain ⟨storage, hstate⟩ : ∃ storage, state (verifyRollbackIssue paqus issue node) =
        { node with storage } := verifyRollbackIssue_state issue node
    rw [h] at hstate
    exact ⟨storage, hstate⟩

/-- An issue that is recorded as requeued has its transaction in the pool exactly when the pool does not hold
another one of the same signer and state. -/
theorem retryRollbackIssueRecord_pooled_iff (issue : RollbackIssue) (verifyProof : Bool) (node : Node F) :
    (∀ issue' after, retryRollbackIssueRecord paqus issue verifyProof node = .ok issue' after →
      issue'.status = .requeued → ∃ hash, paqus.codec.transactionHash issue.transaction = .ok hash ∧
        after.mempool.contains hash = true) ↔
    (Retried paqus issue verifyProof node → ¬node.mempool.Shadows paqus issue.transaction) := by
  constructor
  · intro hproperty hretried hshadows
    obtain ⟨⟨checked, hchecked, hquiet⟩, habsent, hvalid⟩ := hretried
    obtain ⟨storage, rfl⟩ := runIf_verify_state hchecked
    have hsubmit : submitProtocolTransaction paqus issue.transaction { node with storage } =
        .error (.mempool .duplicateTransaction) { node with storage, clockReads := node.clockReads + 1 } := by
      rw [submitProtocolTransaction_apply]
      simp only [hshadows.duplicate]
    have hrun := retryRollbackIssueRecord_eq_ok.mpr ⟨_, none, hchecked, habsent, hvalid, hquiet, rfl, rfl⟩
    simp only [RollbackIssue.retried, hsubmit] at hrun
    obtain ⟨hash, hhash, hpooled⟩ := hproperty _ _ hrun rfl
    obtain ⟨hash', hencoded, _, _, hfresh, _⟩ := hshadows
    cases hhash.symm.trans hencoded.1
    have hkept : node.mempool.transactions.contains hash = true := hpooled
    rw [Std.ExtTreeMap.contains_eq_isSome_getElem?, hfresh] at hkept
    cases hkept
  · intro hcondition issue' after hrun hrequeued
    obtain ⟨checked, location, hchecked, hlocation, hvalid, hquiet, rfl, rfl⟩ := retryRollbackIssueRecord_eq_ok.mp hrun
    obtain ⟨storage, rfl⟩ := runIf_verify_state hchecked
    cases location with
    | some location => cases hrequeued
    | none =>
      have hclear := hcondition ⟨⟨_, hchecked, hquiet⟩, hlocation, hvalid⟩
      have hcases := Mempool.insertValidated_cases paqus (node.clock node.clockReads) node.ledger issue.transaction
        node.mempool
      simp only [RollbackIssue.retried, submitProtocolTransaction_apply] at hrequeued ⊢
      generalize Mempool.insertValidated paqus (node.clock node.clockReads) node.ledger
        issue.transaction node.mempool = result at hcases hrequeued ⊢
      cases hcases with
      | refused hother _ => cases (resubmitted_refused hother).symm.trans hrequeued
      | crowded hother _ _ => cases (resubmitted_refused hother).symm.trans hrequeued
      | conflicting hother _ _ _ => cases (resubmitted_refused hother).symm.trans hrequeued
      | @duplicate hash hencoded hsize houtputs hknown =>
        refine ⟨hash, hencoded.1, ?_⟩
        rw [Mempool.contains, Std.ExtTreeMap.contains_eq_isSome_getElem?, Option.isSome_iff_ne_none]
        intro hfresh
        have hused := hknown.resolve_left (fun hfound => hfound hfresh)
        exact hclear ⟨hash, hencoded, hsize, houtputs, hfresh, hused⟩
      | @inserted hash evicted hvetted _ _ =>
        refine ⟨hash, hvetted.encoded.1, ?_⟩
        show (evicted.transactions.insert hash issue.transaction).contains hash = true
        simp

namespace Reference

def shadowedCalls : List NodeCall :=
  [.submit (transfer 502 1 0 3 30), .applyBlock (Tip.genesis.next 111 1 [transfer 501 1 0 2 30]).block,
    .applyBlock (Tip.genesis.next 121 100 []).block]

/-- The reorganisation, and a retry like the one it makes, record the issue as requeued, and the pool does not hold
its transaction. -/
theorem requeued_not_pooled :
    ∃ node, Reachable (protocol 2) node ∧ ∃ issue issue' after,
      node.storage.rollbackIssues[111501]? = some issue ∧ issue.transaction = transfer 501 1 0 2 30 ∧
      issue.status = .requeued ∧ node.mempool.contains 501 = false ∧
      retryRollbackIssueRecord (protocol 2) issue false node = .ok issue' after ∧
      issue'.status = .requeued ∧ after.mempool.contains 501 = false := by
  obtain ⟨node, hnode, issue, hissue, htransaction, hstatus, hpooled, hagain, hpooled'⟩ : ∃ node,
      sampleRun 2 shadowedCalls = .ok node ∧ ∃ issue ∈ node.storage.rollbackIssues[111501]?,
      issue.transaction = transfer 501 1 0 2 30 ∧ issue.status = .requeued ∧ node.mempool.contains 501 = false ∧
      let again := retryRollbackIssueRecord (protocol 2) issue false node
      (outcome again).toOption.map RollbackIssue.status = some .requeued ∧
        (state again).mempool.contains 501 = false := exists_ok_and (by decide +kernel)
  obtain ⟨issue', hok, hstatus'⟩ := Option.map_eq_some_iff.mp hagain
  exact ⟨node, sampleRun_reachable hnode, issue, issue', _, hissue, htransaction, hstatus, hpooled, ok_of_outcome hok,
    hstatus', hpooled'⟩

end Reference

variable (paqus) in
/-- No block of the ledger holds a transaction with the hash of this one. -/
def unconfirmed (ledger : Ledger) (transaction : SignedProtocolTransaction) : Bool :=
  match paqus.codec.transactionHash transaction with
  | .error _ => false
  | .ok hash =>
    match canonicalTransactionLocation paqus ledger hash with
    | .ok none => true
    | _ => false

variable (paqus) in
/-- Two issues have one id only for the same transaction. -/
structure IdsIdentify (storage : Storage) (disconnected : List (BlockHash × SignedProtocolTransaction)) :
    Prop where
  stored : ∀ (id : RollbackIssueId) issue, storage.rollbackIssues[id]? = some issue →
    ∀ lost ∈ disconnected, issueId? paqus lost = some id → issue.transaction = lost.2
  opened : ∀ lost ∈ disconnected, ∀ other ∈ disconnected, ∀ id,
    issueId? paqus lost = some id → issueId? paqus other = some id → lost.2 = other.2

variable (paqus) in
def Node.disconnected (node : Node F) (plan : ReorgPlan) : List (BlockHash × SignedProtocolTransaction) :=
  disconnectedTransactions paqus (paqus.fork.ancestorHashes node.forkChoice plan.bestTip)
    node.ledger.storedBlocks

section One

variable {issue stored opened : RollbackIssue} {node next : Node F}

theorem submitProtocolTransaction_state (transaction : SignedProtocolTransaction) (node : Node F) :
    state (submitProtocolTransaction paqus transaction node) =
      { node with
        mempool := state (Mempool.insertValidated paqus (node.clock node.clockReads) node.ledger
          transaction node.mempool)
        clockReads := node.clockReads + 1 } := by
  rw [submitProtocolTransaction_apply]
  cases Mempool.insertValidated paqus (node.clock node.clockReads) node.ledger transaction node.mempool <;> rfl

end One

section Loop

variable {ledger : Ledger} {config : MempoolConfig}
  {disconnected : List (BlockHash × SignedProtocolTransaction)} {queued : List SignedProtocolTransaction}
  {node next : Node F} {issue : RollbackIssue}

theorem IdsIdentify.saved {storage storage' : Storage} (h : IdsIdentify paqus storage disconnected)
    {id : RollbackIssueId}
    (hissue : ∀ lost ∈ disconnected, issueId? paqus lost = some id → issue.transaction = lost.2)
    (hsaved : storage'.rollbackIssues = storage.rollbackIssues.insert id issue) :
    IdsIdentify paqus storage' disconnected := by
  refine ⟨fun other found hfound lost hlost hid => ?_, h.opened⟩
  rw [hsaved, OrderedMap.getElem?_insert] at hfound
  split at hfound
  next heq =>
    cases hfound
    exact hissue lost hlost (heq ▸ hid)
  next => exact h.stored other found hfound lost hlost hid

variable (activation : ActivationLaws paqus)

include activation

variable {u : Unit} {contextId : RollbackProofContextId}

end Loop

end PaqusNetwork
