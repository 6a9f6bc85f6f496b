import PaqusNetwork.Node.Frame

namespace PaqusNetwork

open Effect

variable {F : Type} (paqus : Paqus F) {J : Node F → Prop}

/-- A predicate that every part of the handling of a block keeps. -/
structure Handled (J : Node F → Prop) : Prop where
  clockReads : ∀ {node} clockReads, J node → J { node with clockReads }
  connect : ∀ block, Keeps J (applyKnownParentBlock paqus block)
  prune : ∀ now, Keeps J (pruneExpiredOrphans now : NodeM F Unit)
  cache : ∀ block, Keeps J (cacheOrphanBlock paqus block)
  taken : ∀ {node} hash, J node → J { node with orphanBlocks := node.orphanBlocks.erase hash }
  indexed : ∀ {node} index, J node → J { node with orphanChildrenByParent := index }
  counted : ∀ {node} blockValidationFailuresTotal, J node → J { node with blockValidationFailuresTotal }

section Block

variable {paqus} (hJ : Handled paqus J)

include hJ

theorem Handled.connectChildren_keeps (children parents : List BlockHash) :
    Keeps J (connectChildren paqus children parents) := by
  induction children generalizing parents with
  | nil => exact Keeps.pure _
  | cons childHash rest ih =>
    unfold connectChildren
    refine Keeps.get.bind fun node => ?_
    split
    · exact ih parents
    · refine Keeps.bind (Yields.modify fun _ h => hJ.taken childHash h) fun _ => ?_
      refine Keeps.bind (Yields.attempt (hJ.connect _)) fun result => ?_
      split
      · exact ih _
      · exact (hJ.cache _).bind fun _ => ih _
      · exact ih _

theorem Handled.processParents_keeps (turns : Nat) (parents : List BlockHash) :
    Keeps J (processParents paqus turns parents) := by
  induction turns generalizing parents with
  | zero => exact Keeps.pure _
  | succ turns ih =>
    cases parents with
    | nil => exact Keeps.pure _
    | cons parent parents =>
      unfold processParents
      refine Keeps.get.bind fun node => ?_
      split
      · exact ih parents
      · refine Keeps.bind (Yields.modify fun _ h => hJ.indexed _ h) fun _ => ?_
        exact (hJ.connectChildren_keeps _ _).bind fun parents => ih parents

theorem Handled.applyBlock_keeps (block : Block) : Keeps J (applyBlock paqus block) := by
  have hclock : Keeps J (currentUnixTimestamp : NodeM F Nat) := fun _ h => hJ.clockReads _ h
  unfold applyBlock
  refine hclock.bind fun now => ?_
  refine (hJ.prune now).bind fun _ => ?_
  refine Keeps.bind (Yields.attempt (hJ.connect block)) fun result => ?_
  unfold finishBlock
  split
  · refine Keeps.bind_liftExcept fun hash _ => ?_
    refine hclock.bind fun now => ?_
    refine (hJ.prune now).bind fun _ => ?_
    refine Keeps.get.bind fun node => ?_
    exact hJ.processParents_keeps _ _
  · exact hJ.cache block
  · exact Keeps.pure _
  · exact Keeps.pure _
  · exact Keeps.bind (Yields.modify fun _ h => hJ.counted _ h) fun _ => Keeps.throw _

end Block

/-- The calls that the rest of the program makes on a node. -/
inductive NodeCall
  | applyBlock (block : Block)
  | submit (transaction : SignedProtocolTransaction)
  | evictByPolicy (now : Nat)
  | removeConfirmed (block : Block)
  | retryRollbackIssue (id : RollbackIssueId)
  | drainMissingParents
  | retryMissingParent (hash : BlockHash)
  | stageCompact (hash : BlockHash) (compact : CompactBlock)
  | takeCompact (hash : BlockHash)

def NodeCall.after (node : Node F) : NodeCall → Node F
  | applyBlock block => state (PaqusNetwork.applyBlock paqus block node)
  | submit transaction => state (submitProtocolTransaction paqus transaction node)
  | evictByPolicy now => state (onMempool (Mempool.evictByPolicy paqus now) node)
  | removeConfirmed block => state (onMempool (Mempool.removeConfirmed paqus block) node)
  | retryRollbackIssue id => state (PaqusNetwork.retryRollbackIssue paqus id node)
  | drainMissingParents => state (drainMissingParentRequests node)
  | retryMissingParent hash => state (retryMissingParentRequest paqus hash node)
  | stageCompact hash compact => state (stageCompactBlock hash compact node)
  | takeCompact hash => state (takeCompactBlock hash node)

inductive Run (start : Node F) : Node F → Prop
  | start : Run start start
  | step {node : Node F} (call : NodeCall) (before : Run start node) : Run start (call.after paqus node)

def afterCalls (node : Node F) (calls : List NodeCall) : Node F :=
  calls.foldl (fun node call => call.after paqus node) node

variable {node start : Node F}

theorem Run.calls (h : Run paqus start node) (calls : List NodeCall) :
    Run paqus start (afterCalls paqus node calls) := by
  induction calls generalizing node with
  | nil => exact h
  | cons call rest ih => exact ih (.step call h)

/-- The states of a node that `init_or_load` built on a fresh database; the pool gets its
configuration right after. -/
def Reachable (node : Node F) : Prop :=
  ∃ faults consensus clock config start,
    initFresh paqus (Storage.empty faults) consensus clock = .ok start ∧
      Run paqus { start with mempool := Mempool.withConfig config } node

section Reach

variable {paqus}

/-- A predicate that every part of the handling of a block keeps, and every other call as a whole. -/
structure Served (paqus : Paqus F) (J : Node F → Prop) : Prop extends Handled paqus J where
  mempool : ∀ {node mempool}, Mempool.Step paqus node.ledger node.mempool mempool → J node → J { node with mempool }
  retried : ∀ id, Keeps J (retryRollbackIssue paqus id)
  requested : ∀ {node} missingParentRequests missingParentRequestSet missingParentRetryAt, J node →
    J { node with missingParentRequests, missingParentRequestSet, missingParentRetryAt }
  staged : ∀ {node} pendingCompactBlocks, J node → J { node with pendingCompactBlocks }

theorem Served.after_keeps (hJ : Served paqus J) (h : J node) (call : NodeCall) : J (call.after paqus node) := by
  have hpool : ∀ {α : Type} {program : EStateM MempoolError Mempool α},
      (∀ ledger pool, Mempool.Step paqus ledger pool (state (program pool))) →
        J (state (onMempool program node)) := by
    intro α program hstep
    rw [onMempool, state_focus]
    exact hJ.mempool (hstep node.ledger node.mempool) h
  cases call with
  | applyBlock block => exact hJ.applyBlock_keeps block node h
  | submit transaction => exact submitProtocolTransaction_keeps hJ.mempool hJ.clockReads transaction node h
  | evictByPolicy now => exact hpool fun _ _ => .evicted now
  | removeConfirmed block => exact hpool fun _ _ => .confirmed block
  | retryRollbackIssue id => exact hJ.retried id node h
  | drainMissingParents => exact hJ.requested _ _ _ (hJ.clockReads _ h)
  | retryMissingParent hash =>
    have hread := hJ.clockReads (node.clockReads + 1) h
    simp only [NodeCall.after, retryMissingParentRequest]
    rw [currentUnixTimestamp_bind]
    simp only [queueMissingParentRequestAt, modify_apply, state_ok]
    split
    · exact hread
    · exact hJ.requested _ _ _ hread
  | stageCompact hash compact => exact hJ.staged _ h
  | takeCompact hash => exact hJ.staged _ h

theorem Run.served (hJ : Served paqus J) (h : Run paqus start node) (hstart : J start) : J node := by
  induction h with
  | start => exact hstart
  | step call before ih => exact hJ.after_keeps ih call

variable {I : Main F × List (Main F × Block) → Prop}

theorem served_track (hmempool : ∀ {node : Node F} {mempool}, Mempool.Step paqus node.ledger node.mempool mempool →
      I node.track → I { node with mempool }.track)
    (hretried : ∀ id, Keeps (fun node : Node F => I node.track) (retryRollbackIssue paqus id))
    (hconnect : ∀ block, Keeps (fun node => I node.track) (applyKnownParentBlock paqus block)) :
    Served paqus fun node => I node.track where
  clockReads _ h := h
  connect := hconnect
  prune := (sheltering_track paqus I).pruneExpiredOrphans_keeps
  cache := (sheltering_track paqus I).cacheOrphanBlock_keeps
  taken _ h := h
  indexed _ h := h
  counted _ h := h
  mempool := hmempool
  retried := hretried
  requested _ _ _ h := h
  staged _ h := h

/-- What every step of the database and the pool and every application of a block to its parent keeps holds
along every run. -/
theorem Run.keeps_track (hstable : Stable paqus fun node => I node.track) (h : Run paqus start node)
    (hconnect : ∀ (block : Block) (node : Node F), I node.track →
      I (state (applyKnownParentBlock paqus block node)).track) (hstart : I start.track) : I node.track :=
  h.served (served_track hstable.mempool hstable.retryRollbackIssue_keeps hconnect) hstart

/-- What every application of a block to its parent keeps holds along every run. -/
theorem Run.keeps {I : Core F → List (Main F × Block) → Prop} (h : Run paqus start node)
    (hconnect : ∀ (block : Block) (node : Node F), I node.toCore node.connections →
      I (state (applyKnownParentBlock paqus block node)).toCore
        (state (applyKnownParentBlock paqus block node)).connections) (hstart : I start.toCore start.connections) :
    I node.toCore node.connections :=
  h.keeps_track (I := fun track => I track.1.toCore track.2) ⟨fun _ h => h, fun _ h => h, fun _ h => h⟩ hconnect hstart

theorem Run.keeps_core {I : Core F → Prop} (h : Run paqus start node)
    (hstep : ∀ {block core next}, I core → CoreStep paqus block core next → I next)
    (hstart : I start.toCore) : I node.toCore :=
  h.keeps (I := fun core _ => I core)
    (fun block node hI => hstep hI (applyKnownParentBlock_core paqus block node)) hstart

theorem applyKnownParentBlock_connections (block : Block) (node : Node F) :
    (state (applyKnownParentBlock paqus block node)).connections = node.connections ++ [(node.toMain, block)] :=
  congrArg Node.Pool.connections (applyKnownParentBlock_pool paqus block node)

def connectionsSince (start node : Node F) : List (Main F × Block) := node.connections.drop start.connections.length

variable {allowed : Main F → Block → Prop}

/-- What every call keeps, the application of a block under a condition, holds along every run whose
applications meet it. -/
theorem Run.keeps_calls {I : Main F → Prop}
    (hmempool : ∀ {node : Node F} {mempool}, Mempool.Step paqus node.ledger node.mempool mempool →
      I node.toMain → I { node with mempool }.toMain)
    (hretried : ∀ id, Keeps (fun node : Node F => I node.toMain) (retryRollbackIssue paqus id))
    (h : Run paqus start node)
    (hconnect : ∀ (block : Block) (node : Node F), I node.toMain → allowed node.toMain block →
      I (state (applyKnownParentBlock paqus block node)).toMain) (hstart : I start.toMain)
    (hallowed : ∀ connection ∈ connectionsSince start node, allowed connection.1 connection.2) : I node.toMain := by
  -- The condition is on the whole run, so the invariant asks it of the connections so far.
  let J : Main F × List (Main F × Block) → Prop := fun track => ∃ later,
    track.2 = start.connections ++ later ∧ ((∀ connection ∈ later, allowed connection.1 connection.2) → I track.1)
  have hinv : J node.track := by
    refine h.served (served_track (I := J) ?_ ?_ ?_) ⟨[], by simp [Node.track], fun _ => hstart⟩
    · rintro node mempool step ⟨later, hlater, hI⟩
      exact ⟨later, hlater, fun hall => hmempool step (hI hall)⟩
    · rintro id node ⟨later, hlater, hI⟩
      have hsame : Stable paqus fun other : Node F => other.connections = node.connections :=
        ⟨fun _ h => h, fun _ h => h, fun _ h => h⟩
      exact ⟨later, (hsame.retryRollbackIssue_keeps id node rfl).trans hlater, fun hall =>
        hretried id node (hI hall)⟩
    · rintro block node ⟨later, hlater, hI⟩
      have hconnections : node.connections = start.connections ++ later := hlater
      refine ⟨later ++ [(node.toMain, block)], ?_, fun hall => ?_⟩
      · show (state (applyKnownParentBlock paqus block node)).connections = _
        rw [applyKnownParentBlock_connections, hconnections, List.append_assoc]
      · exact hconnect block node (hI fun connection hc => hall connection (by simp [hc]))
          (hall (node.toMain, block) (by simp))
  obtain ⟨later, hlater, hI⟩ := hinv
  refine hI fun connection hc => hallowed connection ?_
  have hconnections : node.connections = start.connections ++ later := hlater
  rw [connectionsSince, hconnections, List.drop_left]
  exact hc

theorem Run.keeps_along {I : Core F → Prop} (h : Run paqus start node)
    (hconnect : ∀ (block : Block) (node : Node F), I node.toCore → allowed node.toMain block →
      I (state (applyKnownParentBlock paqus block node)).toCore) (hstart : I start.toCore)
    (hallowed : ∀ connection ∈ connectionsSince start node, allowed connection.1 connection.2) : I node.toCore :=
  have hstable := stable_core paqus I
  h.keeps_calls (I := fun main => I main.toCore) hstable.mempool hstable.retryRollbackIssue_keeps hconnect hstart
    hallowed

end Reach

end PaqusNetwork
