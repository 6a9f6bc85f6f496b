import PaqusNetwork.Mempool.Built
import PaqusNetwork.Node.Init

namespace PaqusNetwork

open Effect

variable {F : Type} (paqus : Paqus F)

/-- A predicate that every step of the database and of the transaction pool keeps, and that does not
read the clock readings. -/
structure Stable (I : Node F → Prop) : Prop where
  storage : ∀ {node storage}, Storage.Step paqus node.storage storage → I node → I { node with storage }
  mempool : ∀ {node mempool}, Mempool.Step paqus node.ledger node.mempool mempool → I node → I { node with mempool }
  clockReads : ∀ {node} clockReads, I node → I { node with clockReads }

theorem stable_core (I : Core F → Prop) : Stable paqus fun node : Node F => I node.toCore :=
  ⟨fun _ h => h, fun _ h => h, fun _ h => h⟩

variable {α : Type}

theorem currentUnixTimestamp_bind {f : Nat → NodeM F α} {node : Node F} :
    (currentUnixTimestamp >>= f) node =
      f (node.clock node.clockReads) { node with clockReads := node.clockReads + 1 } := rfl

variable {program : StorageM α}

theorem onStorage_eq_ok {node next : Node F} {a : α} :
    (onStorage program : NodeM F α) node = .ok a next ↔
      ∃ storage, program node.storage = .ok a storage ∧ next = { node with storage } :=
  focus_eq_ok

variable {I : Node F → Prop}

theorem submitProtocolTransaction_keeps {paqus : Paqus F}
    (hmempool : ∀ {node mempool}, Mempool.Step paqus node.ledger node.mempool mempool → I node →
      I { node with mempool }) (hclock : ∀ {node} clockReads, I node → I { node with clockReads })
    (transaction : SignedProtocolTransaction) : Keeps I (submitProtocolTransaction paqus transaction) := by
  intro node hnode
  -- The pool checks the transaction against the ledger that the node has now.
  unfold submitProtocolTransaction onMempool
  rw [get_bind, currentUnixTimestamp_bind, state_focus]
  exact hmempool (.inserted _ transaction) (hclock _ hnode)

theorem verifyRollbackIssue_keeps {paqus : Paqus F}
    (hload : ∀ id, Keeps I (onStorage (Storage.loadRollbackProofContext paqus id) :
      NodeM F (Option RollbackProofContext)))
    (issue : RollbackIssue) : Keeps I (verifyRollbackIssue paqus issue) := by
  have hbundle : Keeps I (rollbackProofBundle paqus issue) := by
    unfold rollbackProofBundle
    refine (hload _).bind fun context => ?_
    split
    · refine Keeps.get.bind fun node => ?_
      refine Keeps.bind_liftExcept fun current _ => ?_
      refine (Keeps.ensure _ _).bind fun _ => ?_
      split
      · refine Keeps.bind_liftExcept fun ancestor _ => ?_
        split
        · exact Keeps.pure _
        · exact Keeps.throw _
      · exact Keeps.throw _
    · exact Keeps.throw _
  exact hbundle.bind fun bundle => Keeps.bind_liftExcept fun verified _ => Keeps.ensure _ _

section Stable

variable {paqus} (hI : Stable paqus I)

include hI

theorem Stable.onStorage_keeps (hstep : ∀ storage, Storage.Step paqus storage (state (program storage))) :
    Keeps I (onStorage program : NodeM F α) := by
  intro node hnode
  unfold onStorage
  rw [state_focus]
  exact hI.storage (hstep node.storage) hnode

theorem Stable.onMempool_keeps {program : EStateM MempoolError Mempool α}
    (hstep : ∀ ledger pool, Mempool.Step paqus ledger pool (state (program pool))) :
    Keeps I (onMempool program : NodeM F α) := by
  intro node hnode
  unfold onMempool
  rw [state_focus]
  exact hI.mempool (hstep node.ledger node.mempool) hnode

theorem Stable.currentUnixTimestamp_keeps : Keeps I (currentUnixTimestamp : NodeM F Nat) :=
  fun _ hnode => hI.clockReads _ hnode

theorem Stable.saveRollbackIssue_keeps (issue : RollbackIssue) :
    Keeps I (onStorage (Storage.saveRollbackIssue paqus issue) : NodeM F Unit) :=
  hI.onStorage_keeps fun _ => .saveRollbackIssue issue

theorem Stable.loadRollbackIssue_keeps (id : RollbackIssueId) :
    Keeps I (onStorage (Storage.loadRollbackIssue paqus id) : NodeM F (Option RollbackIssue)) :=
  hI.onStorage_keeps fun _ => .loadRollbackIssue id

theorem Stable.submitProtocolTransaction_keeps (transaction : SignedProtocolTransaction) :
    Keeps I (submitProtocolTransaction paqus transaction) :=
  PaqusNetwork.submitProtocolTransaction_keeps hI.mempool hI.clockReads transaction

theorem Stable.retryRollbackIssueRecord_keeps (issue : RollbackIssue) (verifyProof : Bool) :
    Keeps I (retryRollbackIssueRecord paqus issue verifyProof) := by
  have hverify : Keeps I (verifyRollbackIssue paqus issue) :=
    verifyRollbackIssue_keeps (fun _ => hI.onStorage_keeps fun _ => .loadRollbackProofContext _) issue
  unfold retryRollbackIssueRecord
  refine (Keeps.runIf _ hverify).bind fun _ => ?_
  refine Keeps.get.bind fun node => ?_
  refine Keeps.bind_liftExcept fun location _ => ?_
  split
  · exact (hI.saveRollbackIssue_keeps _).bind fun _ => Keeps.pure _
  · refine Keeps.bind (Yields.attempt (hI.submitProtocolTransaction_keeps _)) fun result => ?_
    exact (hI.saveRollbackIssue_keeps _).bind fun _ => Keeps.pure _

theorem Stable.retryRollbackIssue_keeps (id : RollbackIssueId) : Keeps I (retryRollbackIssue paqus id) := by
  unfold retryRollbackIssue
  refine (hI.loadRollbackIssue_keeps id).bind fun found => ?_
  split
  · exact Keeps.pure _
  · split
    · exact Keeps.pure _
    · exact (hI.retryRollbackIssueRecord_keeps _ _).bind fun _ => Keeps.pure _

theorem Stable.reconfirmIssues_keeps (block : Block) (blockHash : BlockHash)
    (issues : List RollbackIssue) : Keeps I (reconfirmIssues paqus block blockHash issues) := by
  induction issues with
  | nil => exact Keeps.pure _
  | cons issue rest ih => exact (hI.saveRollbackIssue_keeps _).bind fun _ => ih

theorem Stable.markRollbackIssuesReconfirmed_keeps (block : Block) :
    Keeps I (markRollbackIssuesReconfirmed paqus block) := by
  have hmark : ∀ blockHash transactions,
      Keeps I (markTransactions paqus block blockHash transactions) := by
    intro blockHash transactions
    induction transactions with
    | nil => exact Keeps.pure _
    | cons transaction rest ih =>
      refine Keeps.bind_liftExcept fun hash _ => ?_
      refine (hI.onStorage_keeps fun _ => .loadRollbackIssues).bind fun issues => ?_
      exact (hI.reconfirmIssues_keeps block blockHash _).bind fun _ => ih
  exact Keeps.bind_liftExcept fun blockHash _ => hmark blockHash _

theorem Stable.recordTransactions_keeps (contextId : RollbackProofContextId) (block : Block)
    (blockHash : BlockHash) (index : Nat) (transactions : List SignedProtocolTransaction) :
    Keeps I (recordTransactions paqus contextId block blockHash index transactions) := by
  induction transactions generalizing index with
  | nil => exact Keeps.pure _
  | cons transaction rest ih =>
    have hopen : ∀ opened, Keeps I (openIssue paqus opened) := by
      intro opened
      refine (hI.loadRollbackIssue_keeps _).bind fun found => ?_
      split
      · exact Keeps.pure _
      · exact (hI.saveRollbackIssue_keeps _).bind fun _ => Keeps.pure _
    unfold recordTransactions
    refine (Keeps.ensure _ _).bind fun _ => ?_
    refine Keeps.bind_liftExcept fun proof _ => ?_
    refine Keeps.bind hI.currentUnixTimestamp_keeps fun now => ?_
    refine Keeps.bind_liftExcept fun opened _ => ?_
    refine (hopen opened).bind fun issue => ?_
    exact Keeps.bind (Yields.discard (hI.retryRollbackIssueRecord_keeps issue false)) fun _ => ih (index + 1)

theorem Stable.recordDisconnected_keeps (contextId : RollbackProofContextId)
    (winningHashes : List BlockHash) (blocks : List Block) :
    Keeps I (recordDisconnected paqus contextId winningHashes blocks) := by
  induction blocks with
  | nil => exact Keeps.pure _
  | cons block rest ih =>
    refine Keeps.bind_liftExcept fun blockHash _ => ?_
    exact (Keeps.runIf _ (hI.recordTransactions_keeps _ _ _ _ _)).bind fun _ => ih

end Stable

def Node.track (node : Node F) : Main F × List (Main F × Block) := (node.toMain, node.connections)

/-- A predicate that every step of the orphan pool keeps. -/
structure Sheltering (I : Node F → Prop) : Prop where
  clockReads : ∀ {node} clockReads, I node → I { node with clockReads }
  removed : ∀ {node} hash, I node → I (removeOrphan node hash)
  queued : ∀ hash retryAt, Keeps I (queueMissingParentRequestAt paqus hash retryAt)
  stored : ∀ {node orphan hash} index, paqus.blockHash orphan.block = .ok hash → I node →
    I { node with
      orphanChildrenByParent := index, orphanBlocks := node.orphanBlocks.insert hash orphan }

section Sheltering

variable {paqus} (hI : Sheltering paqus I)

include hI

theorem Sheltering.pruneExpiredOrphans_keeps (now : Nat) : Keeps I (pruneExpiredOrphans now : NodeM F Unit) :=
  fun _ hnode => List.foldlRecOn _ _ hnode fun _ h hash _ => hI.removed hash h

theorem Sheltering.evictOrphan_keeps : Keeps I (evictOrphan : NodeM F Unit) := by
  intro node hnode
  simp only [evictOrphan, modify_apply, state_ok]
  split
  · split
    · exact hI.removed _ hnode
    · exact hnode
  · exact hnode

theorem Sheltering.queueMissingParentRequest_keeps (hash : BlockHash) :
    Keeps I (queueMissingParentRequest paqus hash) := by
  unfold queueMissingParentRequest
  refine Keeps.get.bind fun node => ?_
  split
  · exact Keeps.pure _
  · exact Keeps.bind (fun _ h => hI.clockReads _ h) fun now => hI.queued hash now

theorem Sheltering.cacheOrphanBlock_keeps (block : Block) : Keeps I (cacheOrphanBlock paqus block) := by
  unfold cacheOrphanBlock
  refine Keeps.bind (fun _ h => hI.clockReads _ h) fun now => ?_
  refine (hI.pruneExpiredOrphans_keeps now).bind fun _ => ?_
  split
  · exact Keeps.pure _
  · refine Keeps.get.bind fun node => ?_
    split
    · exact Keeps.pure _
    · refine Keeps.bind_liftExcept fun hash hhash => ?_
      refine Keeps.get.bind fun node => ?_
      split
      · exact Keeps.pure _
      · refine Keeps.bind hI.evictOrphan_keeps fun _ => ?_
        refine (hI.queueMissingParentRequest_keeps _).bind fun _ => ?_
        exact Yields.modify fun _ h => hI.stored _ hhash h

end Sheltering

theorem sheltering_track (I : Main F × List (Main F × Block) → Prop) :
    Sheltering paqus fun node : Node F => I node.track where
  clockReads _ h := h
  removed _ h := h
  queued hash retryAt node h := by
    simp only [queueMissingParentRequestAt, modify_apply, state_ok]
    split
    · exact h
    · exact h
  stored _ _ h := h

theorem pruneFinalizedForks_keeps (hI : ∀ node forkChoice, I node → I { node with forkChoice }) :
    Keeps I (pruneFinalizedForks paqus) := by
  unfold pruneFinalizedForks
  refine Keeps.get.bind fun node => ?_
  split
  · exact Keeps.pure _
  · split
    · exact Keeps.pure _
    · refine Keeps.bind_liftExcept fun hash _ => ?_
      refine Keeps.bind_liftExcept fun pruned _ => ?_
      exact Keeps.bind (Yields.modify fun node h => hI node _ h) fun _ => Keeps.pure _

/-- The parts of the node that only the handling of orphans and of requests changes, and the
history of the connections. -/
structure Node.Pool (F : Type) where
  orphanBlocks : BTreeMap BlockHash OrphanBlock
  orphanChildrenByParent : BTreeMap BlockHash (List BlockHash)
  missingParentRequests : List BlockHash
  missingParentRequestSet : BTreeMap BlockHash Unit
  missingParentRetryAt : BTreeMap BlockHash Nat
  pendingCompactBlocks : BTreeMap BlockHash CompactBlock
  clock : Nat → Nat
  connections : List (Main F × Block)

def Node.pool (node : Node F) : Node.Pool F :=
  ⟨node.orphanBlocks, node.orphanChildrenByParent, node.missingParentRequests,
    node.missingParentRequestSet, node.missingParentRetryAt, node.pendingCompactBlocks, node.clock,
    node.connections⟩

/-- A stable predicate that each assignment of `apply_known_parent_block` keeps. A new ledger comes without
a cached snapshot. -/
structure Connecting (I : Node F → Prop) : Prop extends Stable paqus I where
  ledger : ∀ {node} ledger, I node → I { node with ledger, snapshotCache := none }
  forkChoice : ∀ {node} forkChoice, I node → I { node with forkChoice }
  genesisAccounts : ∀ {node} genesisAccounts, I node → I { node with genesisAccounts }
  cache : ∀ {node} cache, I node → I { node with cache }
  reorgsTotal : ∀ {node} reorgsTotal, I node → I { node with reorgsTotal }

section Connecting

variable {paqus} (hI : Connecting paqus I)

include hI

theorem Connecting.reorgToBestTip_keeps : Keeps I (reorgToBestTip paqus) := by
  unfold reorgToBestTip
  refine Keeps.get.bind fun node => ?_
  refine Keeps.bind_liftExcept fun plan _ => ?_
  refine (hI.onStorage_keeps fun _ => .saveRollbackProofContext _).bind fun _ => ?_
  unfold switchToBestTip
  refine Keeps.get.bind fun node => ?_
  refine Keeps.bind_liftExcept fun ledger _ => ?_
  refine Keeps.bind (Yields.modify fun _ h => hI.ledger _ h) fun _ => ?_
  refine Keeps.bind_liftExcept fun cache _ => ?_
  refine Keeps.bind (Yields.modify fun _ h => hI.cache _ h) fun _ => ?_
  refine (hI.onStorage_keeps fun _ => .saveLedger _).bind fun _ => ?_
  refine Keeps.get.bind fun node => ?_
  refine (hI.recordDisconnected_keeps _ _ _).bind fun _ => ?_
  refine Keeps.bind (Yields.modify fun _ h => hI.reorgsTotal _ h) fun _ => ?_
  exact Yields.discard (pruneFinalizedForks_keeps paqus fun _ _ h => hI.forkChoice _ h)

theorem Connecting.extendActiveTip_keeps (block : Block) (staged : Option Ledger) :
    Keeps I (extendActiveTip paqus block staged) := by
  unfold extendActiveTip
  refine (Keeps.orThrow _ _).bind fun ledger => ?_
  refine Keeps.bind (Yields.modify fun _ h => hI.ledger _ h) fun _ => ?_
  refine (Keeps.runIf _ ?_).bind fun _ => ?_
  · refine Keeps.bind (Yields.modify fun _ h => hI.genesisAccounts _ h) fun _ => ?_
    exact hI.onStorage_keeps fun _ => .saveGenesisAccounts _
  refine (hI.onMempool_keeps fun _ _ => .confirmed _).bind fun _ => ?_
  refine (hI.markRollbackIssuesReconfirmed_keeps block).bind fun _ => ?_
  refine Keeps.get.bind fun node => ?_
  refine Keeps.bind_liftExcept fun cache _ => ?_
  refine Keeps.bind (Yields.modify fun _ h => hI.cache _ h) fun _ => ?_
  refine (hI.onStorage_keeps fun _ => .saveLedger _).bind fun _ => ?_
  exact Yields.discard (pruneFinalizedForks_keeps paqus fun _ _ h => hI.forkChoice _ h)

theorem Connecting.connectBlock_keeps (block : Block) : Keeps I (connectBlock paqus block) := by
  unfold connectBlock
  refine Keeps.get.bind fun node => ?_
  refine Keeps.bind_liftExcept fun _ _ => ?_
  refine Keeps.bind_liftExcept fun staged _ => ?_
  refine Keeps.bind_liftExcept fun inserted _ => ?_
  refine Keeps.bind (Yields.modify fun _ h => hI.forkChoice _ h) fun _ => ?_
  unfold settleInserted
  refine Keeps.get.bind fun node => ?_
  split
  · exact hI.onStorage_keeps fun _ => .saveSideBlock _
  · split
    · exact hI.extendActiveTip_keeps block staged
    · exact hI.reorgToBestTip_keeps

end Connecting

/-- A stable predicate that reads nothing of the ledger, the fork graph and the cache. -/
structure Aside (I : Node F → Prop) : Prop extends Stable paqus I where
  main : ∀ {node} ledger forkChoice genesisAccounts cache snapshotCache reorgsTotal, I node →
    I { node with ledger, forkChoice, genesisAccounts, cache, snapshotCache, reorgsTotal }

theorem aside_pool (I : Node.Pool F → Prop) : Aside paqus fun node : Node F => I node.pool where
  storage _ h := h
  mempool _ h := h
  clockReads _ h := h
  main _ _ _ _ _ _ h := h

theorem Aside.connecting {paqus : Paqus F} (hI : Aside paqus I) : Connecting paqus I where
  toStable := hI.toStable
  ledger {node} ledger h :=
    hI.main ledger node.forkChoice node.genesisAccounts node.cache none node.reorgsTotal h
  forkChoice {node} forkChoice h :=
    hI.main node.ledger forkChoice node.genesisAccounts node.cache node.snapshotCache node.reorgsTotal h
  genesisAccounts {node} genesisAccounts h :=
    hI.main node.ledger node.forkChoice genesisAccounts node.cache node.snapshotCache node.reorgsTotal h
  cache {node} cache h :=
    hI.main node.ledger node.forkChoice node.genesisAccounts cache node.snapshotCache node.reorgsTotal h
  reorgsTotal {node} reorgsTotal h :=
    hI.main node.ledger node.forkChoice node.genesisAccounts node.cache node.snapshotCache reorgsTotal h

theorem Aside.connectBlock_keeps {paqus : Paqus F} (hI : Aside paqus I) (block : Block) :
    Keeps I (connectBlock paqus block) :=
  hI.connecting.connectBlock_keeps block

theorem connectBlock_pool (block : Block) : Leaves Node.pool (connectBlock paqus block) :=
  leaves_of_keeps fun pool => (aside_pool paqus (· = pool)).connectBlock_keeps block

theorem applyKnownParentBlock_pool (block : Block) (node : Node F) :
    (state (applyKnownParentBlock paqus block node)).pool =
      (node.noted block).pool := by
  rw [applyKnownParentBlock_eq, connectBlock_pool]

variable {core : Core F} {forkChoice : F}

/-- The block passes every check on the state and enters the fork graph. -/
structure Admits (core : Core F) (block : Block) (staged : Option Ledger) (hash : BlockHash)
    (forkChoice : F) : Prop where
  valid : core.validateBlockForKnownParent paqus block = .ok ()
  staged : core.validateBlockStateForKnownParent paqus block = .ok staged
  inserted : paqus.fork.insertBlock core.forkChoice block = .ok (hash, forkChoice)

/-- The fork graph may be pruned at the block that the active chain finalises. -/
inductive Pruned (core : Core F) : Core F → Prop
  | kept : Pruned core core
  | pruned {tipHeight : Nat} {final : Block} {hash : BlockHash} {count : Nat} {forkChoice : F}
      (tip : core.ledger.tipHeight = some tipHeight)
      (final_eq : core.ledger.block (tipHeight - paqus.rules.finalityDepth) = some final)
      (hash_eq : paqus.blockHash final = .ok hash)
      (pruned : paqus.fork.pruneFinalized core.forkChoice hash = .ok (count, forkChoice)) :
      Pruned core { core with forkChoice }

theorem Pruned.same {paqus : Paqus F} {next : Core F} (h : Pruned paqus core next) :
    next.ledger = core.ledger ∧ next.genesisAccounts = core.genesisAccounts ∧
      next.consensus = core.consensus := by
  cases h <;> exact ⟨rfl, rfl, rfl⟩

def BestAfter (hash : BlockHash) (forkChoice : F) : Prop :=
  (paqus.fork.bestTip forkChoice).map ForkNode.hash = some hash

instance BestAfter.decidable (hash : BlockHash) (forkChoice : F) : Decidable (BestAfter paqus hash forkChoice) :=
  inferInstanceAs (Decidable (_ = _))

variable {block : Block} {staged : Option Ledger} {hash : BlockHash}

theorem Admits.staged_some {paqus : Paqus F} (h : Admits paqus core block staged hash forkChoice)
    (hext : extendsActiveTip core.ledger block = true) : ∃ ledger, staged = some ledger := by
  cases staged with
  | some ledger => exact ⟨ledger, rfl⟩
  | none =>
    have hstaged := h.staged
    simp [Core.validateBlockStateForKnownParent, hext, pure, Except.pure] at hstaged

theorem forall_admits_iff {paqus : Paqus F} (h : Admits paqus core block staged hash forkChoice)
    (property : BlockHash → F → Prop) :
    (∀ staged hash forkChoice, Admits paqus core block staged hash forkChoice →
      property hash forkChoice) ↔ property hash forkChoice := by
  refine ⟨fun hall => hall _ _ _ h, fun hp staged' hash' forkChoice' h' => ?_⟩
  obtain ⟨rfl, rfl⟩ := Prod.mk.inj (Except.ok.inj (h.inserted.symm.trans h'.inserted))
  exact hp

instance forallAdmits.decidable (core : Core F) (block : Block) (property : BlockHash → F → Prop)
    [∀ hash forkChoice, Decidable (property hash forkChoice)] :
    Decidable (∀ staged hash forkChoice, Admits paqus core block staged hash forkChoice → property hash forkChoice) :=
  match hv : core.validateBlockForKnownParent paqus block,
      hs : core.validateBlockStateForKnownParent paqus block,
      hi : paqus.fork.insertBlock core.forkChoice block with
  | .ok (), .ok _, .ok (hash, forkChoice) =>
    decidable_of_iff (property hash forkChoice) (forall_admits_iff ⟨hv, hs, hi⟩ property).symm
  | .error _, _, _ => .isTrue fun _ _ _ h => by have := h.valid; simp [hv] at this
  | _, .error _, _ => .isTrue fun _ _ _ h => by have := h.staged; simp [hs] at this
  | _, _, .error _ => .isTrue fun _ _ _ h => by have := h.inserted; simp [hi] at this

/-- The ledger and the graph after a block. -/
inductive CoreStep (block : Block) (core : Core F) : Core F → Prop
  | refused : CoreStep block core core
  | inserted {staged : Option Ledger} {hash : BlockHash} {forkChoice : F}
      (admitted : Admits paqus core block staged hash forkChoice)
      (idle : ¬BestAfter paqus hash forkChoice ∨ extendsActiveTip core.ledger block = false) :
      CoreStep block core { core with forkChoice }
  | extended {ledger : Ledger} {hash : BlockHash} {forkChoice : F} {next : Core F}
      (admitted : Admits paqus core block (some ledger) hash forkChoice)
      (best : BestAfter paqus hash forkChoice)
      (onTip : extendsActiveTip core.ledger block = true)
      (pruned : Pruned paqus { core with
        forkChoice, ledger
        genesisAccounts := if block.isGenesis then ledger.accounts else core.genesisAccounts } next) :
      CoreStep block core next
  | switched {staged : Option Ledger} {ledger : Ledger} {hash : BlockHash} {forkChoice : F}
      {plan : ReorgPlan} {next : Core F}
      (admitted : Admits paqus core block staged hash forkChoice)
      (best : BestAfter paqus hash forkChoice)
      (offTip : extendsActiveTip core.ledger block = false)
      (planned : Core.planReorg paqus { core with forkChoice } = .ok plan)
      (rebuilt : Core.ledgerForBranchTip paqus { core with forkChoice } plan.bestTip = .ok ledger)
      (pruned : Pruned paqus { core with forkChoice, ledger } next) : CoreStep block core next

theorem onStorage_core (program : StorageM α) (node : Node F) :
    (state ((onStorage program : NodeM F α) node)).toCore = node.toCore := by
  unfold onStorage
  rw [state_focus]

theorem pruneFinalizedForks_core (node : Node F) :
    Pruned paqus node.toCore (state (pruneFinalizedForks paqus node)).toCore := by
  unfold pruneFinalizedForks
  rw [get_bind]
  cases htip : node.ledger.tipHeight with
  | none => exact .kept
  | some tipHeight =>
    cases hfinal : node.ledger.block (tipHeight - paqus.rules.finalityDepth) with
    | none => simp only [hfinal]; exact .kept
    | some final =>
      simp only [hfinal]
      cases hhash : paqus.blockHash final with
      | error error => exact .kept
      | ok hash =>
        rw [liftExcept_ok, pure_bind]
        cases hprune : paqus.fork.pruneFinalized node.forkChoice hash with
        | error error => exact .kept
        | ok pruned => exact .pruned htip hfinal hhash hprune

theorem pruneFinalizedForks_state (node : Node F) :
    ∃ forkChoice, state (pruneFinalizedForks paqus node) = { node with forkChoice } :=
  pruneFinalizedForks_keeps paqus (I := fun other => ∃ forkChoice, other = { node with forkChoice })
    (fun _ forkChoice ⟨_, h⟩ => ⟨forkChoice, by rw [h]⟩) node ⟨node.forkChoice, rfl⟩

theorem pruneFinalizedForks_yields (core : Core F) :
    Yields (fun node => node.toCore = core) (fun node => Pruned paqus core node.toCore)
      (pruneFinalizedForks paqus) := by
  rintro node rfl
  exact pruneFinalizedForks_core paqus node

theorem extendActiveTip_yields (core : Core F) (block : Block) (ledger : Ledger) :
    Yields (fun node => node.toCore = core)
      (fun node => Pruned paqus { core with
        ledger, genesisAccounts := if block.isGenesis then ledger.accounts else core.genesisAccounts }
        node.toCore)
      (extendActiveTip paqus block (some ledger)) := by
  let mid : Core F := { core with
    ledger, genesisAccounts := if block.isGenesis then ledger.accounts else core.genesisAccounts }
  have hstable := stable_core paqus (· = mid)
  have hkeep : ∀ node : Node F, node.toCore = mid → Pruned paqus mid node.toCore := by
    rintro node hnode
    rw [hnode]
    exact .kept
  have hgenesis : Yields (fun node : Node F => node.toCore = { core with ledger })
      (fun node => node.toCore = mid) (runIf block.isGenesis (recordGenesisAccounts ledger.accounts)) := by
    cases hb : block.isGenesis with
    | false =>
      intro node hnode
      simpa [mid, hb] using hnode
    | true =>
      rintro node hnode
      simp only [runIf_true, recordGenesisAccounts]
      rw [modify_bind, onStorage_core]
      simp [mid, hb, hnode]
  intro node hnode
  rw [extendActiveTip_some]
  have hrest : Yields (fun node : Node F => node.toCore = { core with ledger })
      (fun node => Pruned paqus mid node.toCore) (finishExtension paqus block ledger) := by
    refine Yields.bind hgenesis hkeep fun _ => ?_
    refine Yields.bind (hstable.onMempool_keeps fun _ _ => .confirmed _) hkeep fun _ => ?_
    refine Yields.bind (hstable.markRollbackIssuesReconfirmed_keeps block) hkeep fun _ => ?_
    refine Yields.bind Keeps.get hkeep fun node => ?_
    refine Yields.bind (Keeps.liftExcept _ _) hkeep fun cache => ?_
    refine Yields.bind (Yields.modify fun _ h => h) hkeep fun _ => ?_
    refine Yields.bind (hstable.onStorage_keeps fun _ => .saveLedger _) hkeep fun _ => ?_
    exact Yields.discard (pruneFinalizedForks_yields paqus mid)
  exact hrest _ (by simp [← hnode])

theorem recordSwitch_yields (core : Core F) (oldBlocks : List Block) (plan : ReorgPlan) (ledger : Ledger) :
    Yields (fun node => node.toCore = core) (fun node => Pruned paqus core node.toCore)
      (recordSwitch paqus oldBlocks plan ledger) := by
  have hstable := stable_core paqus (· = core)
  have hkeep : ∀ node : Node F, node.toCore = core → Pruned paqus core node.toCore := by
    rintro node rfl
    exact .kept
  refine Yields.bind (Keeps.liftExcept _ _) hkeep fun cache => ?_
  refine Yields.bind (Yields.modify fun _ h => h) hkeep fun _ => ?_
  refine Yields.bind (hstable.onStorage_keeps fun _ => .saveLedger _) hkeep fun _ => ?_
  refine Yields.bind Keeps.get hkeep fun node => ?_
  refine Yields.bind (hstable.recordDisconnected_keeps _ _ _) hkeep fun _ => ?_
  refine Yields.bind (Yields.modify fun _ h => h) hkeep fun _ => ?_
  exact Yields.discard (pruneFinalizedForks_yields paqus core)

section Settle

variable {paqus} {node : Node F}

theorem connectBlock_of_admits (h : Admits paqus node.toCore block staged hash forkChoice) :
    connectBlock paqus block node = settleInserted paqus block hash staged { node with forkChoice } := by
  unfold connectBlock
  rw [get_bind, h.valid, liftExcept_ok, pure_bind, h.staged, liftExcept_ok, pure_bind, h.inserted, liftExcept_ok,
    pure_bind, modify_bind]

theorem connectBlock_refused (h : ¬∃ staged hash forkChoice, Admits paqus node.toCore block staged hash forkChoice) :
    ∃ error, connectBlock paqus block node = .error error node := by
  unfold connectBlock
  rw [get_bind]
  cases hvalid : node.toCore.validateBlockForKnownParent paqus block with
  | error error => exact ⟨_, rfl⟩
  | ok _ =>
    rw [liftExcept_ok, pure_bind]
    cases hstaged : node.toCore.validateBlockStateForKnownParent paqus block with
    | error error => exact ⟨_, rfl⟩
    | ok staged =>
      rw [liftExcept_ok, pure_bind]
      cases hinsert : paqus.fork.insertBlock node.forkChoice block with
      | error error => exact ⟨_, rfl⟩
      | ok inserted => exact absurd ⟨staged, inserted.1, inserted.2, hvalid, hstaged, hinsert⟩ h

theorem settleInserted_side (h : ¬BestAfter paqus hash node.forkChoice) :
    settleInserted paqus block hash staged node =
      (onStorage (Storage.saveSideBlock paqus block) : NodeM F Unit) node := by
  unfold settleInserted
  rw [get_bind]
  split
  · rfl
  next hbest => exact absurd (not_not.mp hbest) h

theorem settleInserted_extends (h : BestAfter paqus hash node.forkChoice)
    (hext : extendsActiveTip node.ledger block = true) :
    settleInserted paqus block hash staged node = extendActiveTip paqus block staged node := by
  unfold settleInserted
  rw [get_bind]
  split
  next hbest => exact absurd h hbest
  next => rfl

theorem settleInserted_reorgs (h : BestAfter paqus hash node.forkChoice)
    (hoff : extendsActiveTip node.ledger block = false) :
    settleInserted paqus block hash staged node = reorgToBestTip paqus node := by
  unfold settleInserted
  rw [get_bind]
  split
  next hbest => exact absurd h hbest
  next =>
    split
    next hext => rw [hoff] at hext; cases hext
    next => rfl

end Settle

theorem settleInserted_core {node : Node F} (hadm : Admits paqus core block staged hash forkChoice)
    (hnode : node.toCore = { core with forkChoice }) :
    CoreStep paqus block core (state (settleInserted paqus block hash staged node)).toCore := by
  have hfork : node.forkChoice = forkChoice := by rw [hnode]
  have hledger : node.ledger = core.ledger := by rw [hnode]
  by_cases hbest : BestAfter paqus hash forkChoice
  · cases hext : extendsActiveTip core.ledger block with
    | true =>
      rw [settleInserted_extends (by rw [hfork]; exact hbest) (by rw [hledger]; exact hext)]
      obtain ⟨ledger, rfl⟩ := hadm.staged_some hext
      exact .extended hadm hbest hext (extendActiveTip_yields paqus _ block ledger node hnode)
    | false =>
      rw [settleInserted_reorgs (by rw [hfork]; exact hbest) (by rw [hledger]; exact hext)]
      have hcase := reorgToBestTip_case paqus node
      generalize reorgToBestTip paqus node = result at hcase ⊢
      cases hcase with
      | unplanned error => exact hnode ▸ .inserted hadm (.inr hext)
      | stored plan error => exact hnode ▸ .inserted hadm (.inr hext)
      | @switched plan _ ledger planned _ rebuilt =>
        rw [hnode] at planned rebuilt
        refine .switched hadm hbest hext planned rebuilt (recordSwitch_yields paqus _ _ plan ledger _ ?_)
        simp only [hnode]
  · rw [settleInserted_side (by rw [hfork]; exact hbest), onStorage_core, hnode]
    exact .inserted hadm (.inl hbest)

theorem connectBlock_core (block : Block) (node : Node F) :
    CoreStep paqus block node.toCore (state (connectBlock paqus block node)).toCore := by
  by_cases hadmitted : ∃ staged hash forkChoice, Admits paqus node.toCore block staged hash forkChoice
  · obtain ⟨staged, hash, forkChoice, hadm⟩ := hadmitted
    rw [connectBlock_of_admits hadm]
    exact settleInserted_core paqus hadm rfl
  · obtain ⟨error, hrefused⟩ := connectBlock_refused hadmitted
    rw [hrefused]
    exact .refused

theorem applyKnownParentBlock_core (block : Block) (node : Node F) :
    CoreStep paqus block node.toCore (state (applyKnownParentBlock paqus block node)).toCore := by
  rw [applyKnownParentBlock_eq]
  exact connectBlock_core paqus block (node.noted block)

end PaqusNetwork
