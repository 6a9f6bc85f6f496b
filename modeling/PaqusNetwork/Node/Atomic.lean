import PaqusNetwork.Node.Finality
import PaqusNetwork.Node.Worklist

namespace PaqusNetwork

open Effect

variable {F : Type} {paqus : Paqus F} {ranking : Ranking} {α : Type} {storage : Storage} {best : ForkNode}
  {staged : Option Ledger} {hash : BlockHash} {node : Node F}

/-- The errors that `apply_block` does not return. -/
def NodeError.swallowed : NodeError → Bool
  | .forkChoice .missingParent => true
  | .forkChoice .duplicateBlock => true
  | .ledger .duplicateBlock => true
  | _ => false

section Failing

def Failing (forkChoice : F) (node : Node F) : Prop :=
  node.forkChoice = forkChoice ∧ ∀ n, node.storage.calls ≤ n → (node.storage.faults n).isSome = true

def Returned (error : NodeError) : Prop := error.swallowed = false

theorem returned_codec (error : CodecError) : Returned (.codec error) := rfl

theorem returned_storage (error : StorageError) : Returned (.storage error) := rfl

theorem returned_mempool (error : MempoolError) : Returned (.mempool error) := rfl

variable {forkChoice : F}

theorem stable_failing : Stable paqus (Failing forkChoice) where
  storage step h := ⟨h.1, step.keeps (I := fun _ faults calls => ∀ n, calls ≤ n → (faults n).isSome = true)
    (fun _ _ _ h n hn => h n (by omega)) (fun _ _ _ _ _ h => h) h.2⟩
  mempool _ h := h
  clockReads _ h := h

theorem onStorage_throws {program : StorageM α}
    (hstep : ∀ storage, Storage.Step paqus storage (state (program storage)))
    (hfail : ∀ storage : Storage, (storage.faults storage.calls).isSome = true →
      ∃ error next, program storage = .error error next) :
    Throws (Failing forkChoice) Returned (onStorage program : NodeM F α) := by
  intro node hnode
  obtain ⟨error, next, hrun⟩ := hfail node.storage (hnode.2 _ (Nat.le_refl _))
  have hstable : Stable paqus (Failing forkChoice) := stable_failing
  have hkeep := hstable.onStorage_keeps hstep node hnode
  have hresult : (onStorage program : NodeM F α) node = .error (.storage error) { node with storage := next } := by
    simp only [onStorage, focus, hrun]
  rw [hresult] at hkeep
  exact ⟨_, _, hresult, rfl, hkeep⟩

theorem databaseCall_fails (h : (storage.faults storage.calls).isSome = true) :
    ∃ error next, Storage.databaseCall storage = .error error next := by
  unfold Storage.databaseCall
  rw [get_bind, modify_bind]
  obtain ⟨error, herror⟩ := Option.isSome_iff_exists.mp h
  rw [herror]
  exact ⟨error, _, rfl⟩

theorem checked_fails {β ε : Type} {g : ε → StorageError} {y : Except ε α} {f : α → Unit → StorageM β}
    (h : (storage.faults storage.calls).isSome = true) :
    ∃ error next, (do let a ← liftExcept g y; let u ← Storage.databaseCall; f a u : StorageM β) storage =
      .error error next := by
  cases y with
  | error e => exact ⟨_, _, rfl⟩
  | ok a =>
    obtain ⟨error, next, hcall⟩ := databaseCall_fails h
    rw [liftExcept_ok, pure_bind, bind_error hcall]
    exact ⟨error, next, rfl⟩

theorem errs_onStorage (program : StorageM α) : Errs Returned (onStorage program : NodeM F α) :=
  Errs.focus returned_storage program

theorem errs_markRollbackIssuesReconfirmed (block : Block) :
    Errs Returned (markRollbackIssuesReconfirmed paqus block) := by
  have hreconfirm : ∀ blockHash issues, Errs Returned (reconfirmIssues paqus block blockHash issues) := by
    intro blockHash issues
    induction issues with
    | nil => exact Errs.pure _
    | cons issue rest ih => exact (errs_onStorage _).bind fun _ => ih
  have hmark : ∀ blockHash transactions,
      Errs Returned (markTransactions paqus block blockHash transactions) := by
    intro blockHash transactions
    induction transactions with
    | nil => exact Errs.pure _
    | cons transaction rest ih =>
      refine (Errs.liftExcept returned_codec _).bind fun hash => ?_
      refine (errs_onStorage _).bind fun issues => ?_
      exact (hreconfirm blockHash _).bind fun _ => ih
  exact (Errs.liftExcept returned_codec _).bind fun blockHash => hmark blockHash _

theorem extendActiveTip_throws {block : Block} (hgenesis : block.isGenesis = false) (ledger : Ledger) :
    Throws (Failing forkChoice) Returned (extendActiveTip paqus block (some ledger)) := by
  have hstable : Stable paqus (Failing forkChoice) := stable_failing
  unfold extendActiveTip
  simp only [hgenesis, runIf_false, orThrow_some]
  refine Throws.later (Keeps.pure _) (Errs.pure _) fun ledger => ?_
  refine Throws.later (Yields.modify fun _ h => h) (fun _ _ _ h => by cases h) fun _ => ?_
  refine Throws.later (Keeps.pure _) (Errs.pure _) fun _ => ?_
  refine Throws.later (hstable.onMempool_keeps fun _ _ => .confirmed _) (Errs.focus returned_mempool _) fun _ => ?_
  refine Throws.later (hstable.markRollbackIssuesReconfirmed_keeps block)
    (errs_markRollbackIssuesReconfirmed block) fun _ => ?_
  refine Throws.later Keeps.get (fun _ _ _ h => by cases h) fun node => ?_
  refine Throws.later (Keeps.liftExcept _ _) (Errs.liftExcept returned_codec _) fun cache => ?_
  refine Throws.later (Yields.modify fun _ h => h) (fun _ _ _ h => by cases h) fun _ => ?_
  exact Throws.bind (onStorage_throws (fun _ => .saveLedger _) fun _ h => checked_fails h)

end Failing

theorem saveRollbackProofContext_fails (context : RollbackProofContext)
    (h : (storage.faults storage.calls).isSome = true) :
    ∃ error next, Storage.saveRollbackProofContext paqus context storage = .error error next := by
  unfold Storage.saveRollbackProofContext
  cases RollbackProofContext.new paqus context.losingHeaders context.canonicalHeaders context.commonAncestor with
  | error error => exact ⟨_, _, rfl⟩
  | ok expected =>
    rw [liftExcept_ok, pure_bind]
    cases expected.id == context.id with
    | false => exact ⟨_, _, rfl⟩
    | true =>
      obtain ⟨error, next, hcall⟩ := databaseCall_fails h
      rw [ensure_true, pure_bind, bind_error hcall]
      exact ⟨error, next, rfl⟩

theorem reorgToBestTip_crosses {ancestor : BlockHash} (hbest : paqus.fork.bestTip node.forkChoice = some best)
    (hancestor : node.toCore.commonAncestor paqus node.ledger.tipHash best.hash = some ancestor)
    (hcross : paqus.fork.reorgCrossesFinalityBoundary node.ledger node.forkChoice ancestor = true) :
    reorgToBestTip paqus node = .error (.ledger .finalityViolation) node := by
  have hplan : node.toCore.planReorg paqus = .error (.ledger .finalityViolation) := by
    simp only [Core.planReorg, hbest, hancestor, hcross, check, Bool.not_true, Bool.false_eq_true, if_false]
    rfl
  unfold reorgToBestTip
  rw [get_bind, hplan]
  rfl

section Connect

variable (laws : ProtocolLaws paqus ranking) {node : Node F} {block : Block} {forkChoice : F}

include laws

theorem Admits.forkChoice_ne {core : Core F} (hs : core.Sound paqus ranking)
    (h : Admits paqus core block staged hash forkChoice) :
    forkChoice ≠ core.forkChoice := by
  rintro rfl
  obtain ⟨parent, hgrown⟩ := h.grown laws hs
  have hnew := hgrown.get_new
  rw [hgrown.fresh] at hnew
  cases hnew

theorem reorgToBestTip_fails (encoding : EncodingLaws paqus) (hs : node.toCore.Sound paqus ranking)
    (hbest : paqus.fork.bestTip node.forkChoice = some best) (hfail : Failing forkChoice node) :
    ∃ error after, reorgToBestTip paqus node = .error error after ∧ Returned error ∧
      Failing forkChoice after := by
  by_cases hcross : ∃ ancestor, node.toCore.commonAncestor paqus node.ledger.tipHash best.hash =
      some ancestor ∧ paqus.fork.reorgCrossesFinalityBoundary node.ledger node.forkChoice ancestor = true
  · obtain ⟨ancestor, hancestor, hcross⟩ := hcross
    exact ⟨_, node, reorgToBestTip_crosses hbest hancestor hcross, rfl, hfail⟩
  · obtain ⟨plan, hplan⟩ := planReorg_ok laws encoding hs hbest fun ancestor ha =>
      Bool.eq_false_iff.mpr fun hc => hcross ⟨ancestor, ha, hc⟩
    have hsave : Throws (Failing forkChoice) Returned
        (onStorage (Storage.saveRollbackProofContext paqus plan.proofContext) : NodeM F Unit) :=
      onStorage_throws (fun _ => .saveRollbackProofContext _) fun _ h => saveRollbackProofContext_fails _ h
    unfold reorgToBestTip
    rw [get_bind, hplan, liftExcept_ok, pure_bind]
    exact Throws.bind hsave node hfail

theorem connectBlock_throws (encoding : EncodingLaws paqus) (hs : node.toCore.Sound paqus ranking)
    (hfail : ∀ n, node.storage.calls ≤ n → (node.storage.faults n).isSome = true)
    (hadm : Admits paqus node.toCore block staged hash forkChoice) :
    ∃ error after, connectBlock paqus block node = .error error after ∧ Returned error ∧
      Failing forkChoice after := by
  let grown : Node F := { node with forkChoice }
  have hgrown : Failing forkChoice grown := ⟨rfl, hfail⟩
  have hs' : Core.Sound paqus ranking grown.toCore := hs.inserted laws hadm
  rw [connectBlock_of_admits hadm]
  show ∃ error after, settleInserted paqus block hash staged grown = .error error after ∧ _
  by_cases hbest : BestAfter paqus hash forkChoice
  · cases hext : extendsActiveTip node.ledger block with
    | true =>
      obtain ⟨ledger, rfl⟩ := hadm.staged_some hext
      rw [show settleInserted paqus block hash (some ledger) grown =
        extendActiveTip paqus block (some ledger) grown from settleInserted_extends hbest hext]
      exact extendActiveTip_throws (hadm.not_genesis laws hs) ledger grown hgrown
    | false =>
      obtain ⟨best, hbest', _⟩ := Option.map_eq_some_iff.mp hbest
      rw [show settleInserted paqus block hash staged grown = reorgToBestTip paqus grown from
        settleInserted_reorgs hbest hext]
      exact reorgToBestTip_fails laws encoding hs' hbest' hgrown
  · rw [show settleInserted paqus block hash staged grown =
      (onStorage (Storage.saveSideBlock paqus block) : NodeM F Unit) grown from settleInserted_side hbest]
    exact onStorage_throws (fun _ => .saveSideBlock _) (fun _ h => checked_fails h) grown hgrown

end Connect

variable {block : Block}

def Unchanged (before after : Node F) : Prop :=
  after.ledger = before.ledger ∧ after.forkChoice = before.forkChoice ∧
    after.mempool = before.mempool ∧ after.cache = before.cache

def Atomic (paqus : Paqus F) (block : Block) (node : Node F) : Prop :=
  ∀ error after, applyBlock paqus block node = .error error after → Unchanged node after

def Admissible (paqus : Paqus F) (core : Core F) (block : Block) : Prop :=
  ∃ staged hash forkChoice, Admits paqus core block staged hash forkChoice

/-- The block is admissible and becomes the best tip, on a branch that leaves the active one below
the finality boundary. -/
def CrossesFinality (paqus : Paqus F) (core : Core F) (block : Block) : Prop :=
  ∃ staged hash forkChoice, Admits paqus core block staged hash forkChoice ∧
    BestAfter paqus hash forkChoice ∧ extendsActiveTip core.ledger block = false ∧
    ∃ ancestor ∈ Core.commonAncestor paqus { core with forkChoice } core.ledger.tipHash hash,
      paqus.fork.reorgCrossesFinalityBoundary core.ledger forkChoice ancestor = true

def Node.withFaults (node : Node F) (faults : Nat → Option StorageError) : Node F :=
  { node with storage := { node.storage with faults } }

def Node.offered (node : Node F) (block : Block) : Node F := node.pruned.noted block

theorem Node.offered_toMain (node : Node F) (block : Block) : (node.offered block).toMain = node.toMain :=
  List.foldlRecOn _ removeOrphan (motive := fun kept : Node F => kept.toMain = node.toMain) rfl fun _ h _ _ => h

theorem Node.offered_keyed (h : OrphansKeyed paqus node) (block : Block) : OrphansKeyed paqus (node.offered block) :=
  sheltering_orphansKeyed.pruneExpiredOrphans_keeps (node.clock node.clockReads)
    { node with clockReads := node.clockReads + 1 } h

theorem applyBlock_eq (block : Block) (node : Node F) :
    applyBlock paqus block node =
      finishBlock paqus block (outcome (connectBlock paqus block (node.offered block)))
        (state (connectBlock paqus block (node.offered block))) := by
  unfold applyBlock
  rw [currentUnixTimestamp_bind, bind_ok (pruneExpiredOrphans_apply _ _), bind_ok (attempt_apply _ _)]
  rfl

theorem finishBlock_returned {error : NodeError} (h : error.swallowed = false) (block : Block) (node : Node F) :
    finishBlock paqus block (.error error) node = .error error { node with
      blockValidationFailuresTotal := Numeric.saturatingAdd node.blockValidationFailuresTotal 1 } := by
  generalize hresult : (.error error : Except NodeError Unit) = result
  unfold finishBlock
  split
  · cases hresult
  · cases hresult; cases h
  · cases hresult; cases h
  · cases hresult; cases h
  · cases hresult; rfl

theorem applyBlock_refused (h : ¬Admissible paqus node.toCore block) :
    (state (applyBlock paqus block node)).toMain = node.toMain := by
  have hmain := node.offered_toMain block
  have hcore : (node.offered block).toCore = node.toCore := congrArg Main.toCore hmain
  obtain ⟨error, herror⟩ := connectBlock_refused (hcore ▸ h : ¬Admissible paqus (node.offered block).toCore block)
  rw [applyBlock_eq, herror, outcome_error, state_error]
  generalize hresult : (.error error : Except NodeError Unit) = result
  unfold finishBlock
  split
  · cases hresult
  · exact (sheltering_track paqus fun track => track.1 = node.toMain).cacheOrphanBlock_keeps block _ hmain
  · exact hmain
  · exact hmain
  · exact hmain

/-- Blocks that the fork graph holds change nothing when they come again, in any number and order. -/
theorem redelivered_unchanged (laws : ForkChoiceLaws paqus ranking) {blocks : List Block}
    (h : ∀ block ∈ blocks, ∃ hash ∈ (paqus.blockHash block).toOption, paqus.contains node.forkChoice hash = true) :
    (afterCalls paqus node (blocks.map .applyBlock)).toMain = node.toMain := by
  induction blocks generalizing node with
  | nil => rfl
  | cons block rest ih =>
    have hsame : (state (applyBlock paqus block node)).toMain = node.toMain := by
      refine applyBlock_refused ?_
      rintro ⟨_, hash, _, hadm⟩
      obtain ⟨hhash, hfresh⟩ := laws.insert_hash hadm.inserted
      obtain ⟨known, hknown, hcontains⟩ := h block List.mem_cons_self
      rw [hhash] at hknown
      cases hknown
      simp [Paqus.contains, hfresh] at hcontains
    refine (@ih (state (applyBlock paqus block node)) fun other hmem => ?_).trans hsame
    rw [hsame]
    exact h other (List.mem_cons_of_mem _ hmem)

theorem atomic_of_not_admissible (h : ¬Admissible paqus node.toCore block) : Atomic paqus block node := by
  intro error after hrun
  have hmain := applyBlock_refused h
  rw [hrun, state_error] at hmain
  rw [Unchanged, hmain]
  exact ⟨rfl, rfl, rfl, rfl⟩

section Main

variable (laws : ProtocolLaws paqus ranking) (encoding : EncodingLaws paqus) {node : Node F}

include laws

theorem not_atomic_of_crosses (hs : node.toCore.Sound paqus ranking)
    (h : CrossesFinality paqus node.toCore block) : ¬Atomic paqus block node := by
  intro hatomic
  have hcore : (node.offered block).toCore = node.toCore := congrArg Main.toCore (node.offered_toMain block)
  rw [← hcore] at h hs
  obtain ⟨staged, hash, forkChoice, hadm, hbest, hoff, ancestor, hancestor, hcross⟩ := h
  obtain ⟨best, hbest', rfl⟩ := Option.map_eq_some_iff.mp hbest
  let grown : Node F := { node.offered block with forkChoice }
  have hrun : connectBlock paqus block (node.offered block) = .error (.ledger .finalityViolation) grown := by
    rw [connectBlock_of_admits hadm, show settleInserted paqus block best.hash staged grown =
      reorgToBestTip paqus grown from settleInserted_reorgs hbest hoff]
    exact reorgToBestTip_crosses hbest' hancestor hcross
  have hresult := hatomic _ _ (by rw [applyBlock_eq, hrun]; exact finishBlock_returned rfl block grown)
  exact hadm.forkChoice_ne laws hs (hresult.2.1.trans (congrArg Core.forkChoice hcore.symm))

include encoding

theorem not_atomic_of_admissible (hs : node.toCore.Sound paqus ranking) (h : Admissible paqus node.toCore block) :
    ∃ faults, ¬Atomic paqus block (node.withFaults faults) := by
  obtain ⟨staged, hash, forkChoice, hadm⟩ := h
  refine ⟨fun _ => some (.database ""), fun hatomic => ?_⟩
  have hmain := (node.withFaults fun _ => some (.database "")).offered_toMain block
  have hcore : ((node.withFaults fun _ => some (.database "")).offered block).toCore = node.toCore :=
    (congrArg Main.toCore hmain).trans rfl
  have hfaults := congrArg (fun main : Main F => main.storage.faults) hmain
  obtain ⟨error, after, hrun, herror, hafter⟩ := connectBlock_throws laws encoding
    (hcore.symm ▸ hs) (fun n _ => by rw [hfaults]; rfl) (hcore.symm ▸ hadm)
  have hresult := hatomic error _ (by rw [applyBlock_eq, hrun]; exact finishBlock_returned herror block after)
  exact hadm.forkChoice_ne laws hs (hafter.1.symm.trans hresult.2.1)

theorem applyBlock_returns (hs : node.toCore.Sound paqus ranking)
    (hg : GraphStorable paqus node.forkChoice) (hhealthy : Healthy paqus node.toMain)
    (hkeyed : OrphansKeyed paqus node) (hquiet : node.storage.Faultless)
    (hadm : Admissible paqus node.toCore block) (hcross : ¬CrossesFinality paqus node.toCore block) :
    ∃ after, applyBlock paqus block node = .ok () after := by
  have hmain := node.offered_toMain block
  have hcore : (node.offered block).toCore = node.toCore := congrArg Main.toCore hmain
  rw [← hcore] at hadm hcross hs
  obtain ⟨staged, hash, forkChoice, hadm⟩ := hadm
  have hconnect := connectBlock_ok laws encoding hs (by rw [hcore]; exact hg)
    (by rw [hmain]; exact ⟨hquiet, hhealthy.issues⟩) (by rw [hmain]; exact hhealthy.pool) hadm
    fun hbest hoff ancestor ha => Bool.eq_false_iff.mpr fun hc =>
      hcross ⟨staged, hash, forkChoice, hadm, hbest, hoff, ancestor, ha, hc⟩
  obtain ⟨next, hnext⟩ := hconnect
  obtain ⟨parent, hgrown⟩ := hadm.grown laws hs
  have hnext' : OrphansKeyed paqus next := by
    have hpool := congrArg Node.Pool.orphanBlocks (connectBlock_pool paqus block (node.offered block))
    rw [hnext] at hpool
    intro key orphan hfound
    exact Node.offered_keyed hkeyed block key orphan ((congrArg (·[key]?) hpool.symm).trans hfound)
  obtain ⟨after, hafter, _⟩ := (worklist_keyed paqus).processOrphansForParent id
    (sheltering_orphansKeyed.pruneExpiredOrphans_keeps (next.clock next.clockReads)
      { next with clockReads := next.clockReads + 1 } hnext')
  refine ⟨after, ?_⟩
  rw [applyBlock_eq, hnext, outcome_ok, state_ok, finishBlock, hgrown.hash_eq, liftExcept_ok, pure_bind, hafter]

theorem applyBlock_ok (h : Reachable paqus node) (hquiet : node.storage.Faultless)
    (hadm : Admissible paqus node.toCore block) (hcross : ¬CrossesFinality paqus node.toCore block) :
    ∃ after, applyBlock paqus block node = .ok () after := by
  have hkeyed : OrphansKeyed paqus node := by
    obtain ⟨faults, consensus, clock, config, start, hstart, hrun⟩ := h
    obtain ⟨genesis, hfresh⟩ := initFresh_fresh laws hstart
    refine hrun.served served_orphansKeyed fun hash orphan hfound => ?_
    simp [hfresh.orphans_eq] at hfound
  exact applyBlock_returns laws encoding (reachable_sound laws h) (h.storable laws encoding) (h.healthy laws)
    hkeyed hquiet hadm hcross

/-- Every error of `apply_block` leaves the node as it was exactly when the block is not admissible or, where
no database call fails, does not cross the finality boundary. -/
theorem applyBlock_atomic_iff (h : Reachable paqus node) (block : Block) :
    ((∀ faults, Atomic paqus block (node.withFaults faults)) ↔ ¬Admissible paqus node.toCore block) ∧
      (node.storage.Faultless →
        (Atomic paqus block node ↔ ¬CrossesFinality paqus node.toCore block)) := by
  have hs := reachable_sound laws h
  refine ⟨⟨fun hatomic hadm => ?_, fun hno faults => ?_⟩, fun hquiet => ⟨fun hatomic hcross => ?_, fun hno => ?_⟩⟩
  · obtain ⟨faults, hbreaks⟩ := not_atomic_of_admissible laws encoding hs hadm
    exact hbreaks (hatomic faults)
  · exact atomic_of_not_admissible hno
  · exact not_atomic_of_crosses laws hs hcross hatomic
  · by_cases hadm : Admissible paqus node.toCore block
    · intro error after hrun
      obtain ⟨done, hdone⟩ := applyBlock_ok laws encoding h hquiet hadm hno
      rw [hdone] at hrun
      cases hrun
    · exact atomic_of_not_admissible hadm

end Main

namespace Reference

def chainOfThree : List NodeCall :=
  let first := Tip.genesis.next 111 1 []
  let second := first.next 112 1 []
  let third := second.next 113 1 []
  [.applyBlock first.block, .applyBlock second.block, .applyBlock third.block]

theorem redelivered_chain :
    ∃ node, sampleRun 2 chainOfThree = .ok node ∧ node.ledger.tipHash = some 113 ∧
      (afterCalls (protocol 2) node chainOfThree).toMain = node.toMain := by
  let first := Tip.genesis.next 111 1 []
  let second := first.next 112 1 []
  obtain ⟨node, hnode, hknown⟩ : ∃ node, sampleRun 2 chainOfThree = .ok node ∧
      ∀ block ∈ [first.block, second.block, (second.next 113 1 []).block],
        ∃ hash ∈ ((protocol 2).blockHash block).toOption, (protocol 2).contains node.forkChoice hash = true :=
    exists_ok_and (by decide +kernel)
  exact ⟨node, hnode, of_ok hnode (by decide +kernel), redelivered_unchanged (protocol_laws 2).fork hknown⟩

def rival : Block := (Tip.genesis.next 121 100 []).block

def unsolvedRival : Block := { rival with proof := ⟨0⟩ }

theorem applyBlock_atomic_unsolved :
    ∃ node, sampleRun 2 chainOfThree = .ok node ∧
      (∀ faults, Atomic (protocol 2) unsolvedRival (node.withFaults faults)) ∧
      (Atomic (protocol 2) unsolvedRival node ↔
        ¬CrossesFinality (protocol 2) node.toCore unsolvedRival) := by
  obtain ⟨node, hnode, hinvalid⟩ : ∃ node, sampleRun 2 chainOfThree = .ok node ∧
      (node.toCore.validateBlockForKnownParent (protocol 2) unsolvedRival).toOption = none :=
    exists_ok_and (by decide +kernel)
  have hno : ¬Admissible (protocol 2) node.toCore unsolvedRival := by
    rintro ⟨_, _, _, hadm⟩
    rw [hadm.valid] at hinvalid
    cases hinvalid
  have hiff := applyBlock_atomic_iff (protocol_laws 2) (encoding_laws 2) (sampleRun_reachable hnode) unsolvedRival
  exact ⟨node, hnode, hiff.1.mpr hno, hiff.2 (sampleRun_faultless hnode)⟩

/-- The rival is refused with a finality violation, and stays in the fork graph as its best tip. -/
theorem applyBlock_not_atomic :
    ∃ node after, sampleRun 2 chainOfThree = .ok node ∧ Reachable (protocol 2) node ∧
      applyBlock (protocol 2) rival node = .error (.ledger .finalityViolation) after ∧
      ((protocol 2).fork.bestTip node.forkChoice).map ForkNode.hash = some 113 ∧
      ((protocol 2).fork.bestTip after.forkChoice).map ForkNode.hash = some 121 ∧
      ¬Atomic (protocol 2) rival node := by
  obtain ⟨node, hnode⟩ : ∃ node, sampleRun 2 chainOfThree = .ok node := exists_ok (by decide +kernel)
  have happly : applyBlock (protocol 2) rival node = .error (.ledger .finalityViolation) _ :=
    error_of_outcome (of_ok hnode (by decide +kernel))
  refine ⟨node, _, hnode, sampleRun_reachable hnode, happly, of_ok hnode (by decide +kernel),
    of_ok hnode (by decide +kernel), fun hatomic => ?_⟩
  exact absurd (congrArg (protocol 2).fork.bestTip (hatomic _ _ happly).2.1) (of_ok hnode (by decide +kernel))

end Reference

end PaqusNetwork
