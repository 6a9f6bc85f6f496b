import PaqusNetwork.Node.Run

namespace PaqusNetwork

open Effect

variable {F : Type} {paqus : Paqus F} {node' node : Node F} {hash : BlockHash}

theorem pruneExpiredOrphans_apply (now : Nat) (node : Node F) :
    pruneExpiredOrphans now node = .ok () ((expiredOrphans node now).foldl removeOrphan node) := rfl

/-- Each cached orphan is stored under its own hash. -/
def OrphansKeyed (paqus : Paqus F) (node : Node F) : Prop :=
  ∀ (hash : BlockHash) (orphan : OrphanBlock),
    node.orphanBlocks[hash]? = some orphan → paqus.blockHash orphan.block = .ok hash

theorem OrphansKeyed.erase (h : OrphansKeyed paqus node) (hash : BlockHash)
    (he : node'.orphanBlocks = node.orphanBlocks.erase hash) :
    OrphansKeyed paqus node' := by
  intro key orphan hkey
  rw [he, Std.ExtTreeMap.getElem?_erase] at hkey
  split at hkey
  · cases hkey
  · exact h key orphan hkey

theorem OrphansKeyed.insert (h : OrphansKeyed paqus node) {orphan : OrphanBlock}
    (ho : paqus.blockHash orphan.block = .ok hash)
    (he : node'.orphanBlocks = node.orphanBlocks.insert hash orphan) : OrphansKeyed paqus node' := by
  intro key found hkey
  rw [he, Std.ExtTreeMap.getElem?_insert] at hkey
  split at hkey
  next heq =>
    cases hkey
    cases compare_eq_iff_eq.mp heq
    exact ho
  next => exact h key found hkey

theorem queueMissingParentRequest_state (paqus : Paqus F) (hash : BlockHash) (node : Node F) :
    ∃ requests requestSet retryAt clockReads, queueMissingParentRequest paqus hash node =
      .ok () { node with
        missingParentRequests := requests, missingParentRequestSet := requestSet
        missingParentRetryAt := retryAt, clockReads := clockReads } := by
  unfold queueMissingParentRequest
  rw [get_bind]
  split
  · exact ⟨node.missingParentRequests, node.missingParentRequestSet, node.missingParentRetryAt, node.clockReads, rfl⟩
  · rw [currentUnixTimestamp_bind]
    simp only [queueMissingParentRequestAt, modify_apply]
    split
    · exact ⟨node.missingParentRequests, node.missingParentRequestSet, node.missingParentRetryAt,
        node.clockReads + 1, rfl⟩
    · exact ⟨_, _, _, node.clockReads + 1, rfl⟩

theorem sheltering_orphansKeyed : Sheltering paqus (OrphansKeyed paqus) where
  clockReads _ h := h
  removed hash h := h.erase hash rfl
  queued hash retryAt node h := by
    simp only [queueMissingParentRequestAt, modify_apply, state_ok]
    split
    · exact h
    · exact h
  stored _ hhash h := h.insert hhash rfl

theorem stable_orphansKeyed : Stable paqus (OrphansKeyed paqus) := ⟨fun _ h => h, fun _ h => h, fun _ h => h⟩

theorem served_orphansKeyed : Served paqus (OrphansKeyed paqus) where
  mempool _ h := h
  retried := stable_orphansKeyed.retryRollbackIssue_keeps
  clockReads _ h := h
  connect block node h := by
    have hpool := congrArg Node.Pool.orphanBlocks (applyKnownParentBlock_pool paqus block node)
    intro hash orphan hfound
    exact h hash orphan ((congrArg (·[hash]?) hpool.symm).trans hfound)
  prune := sheltering_orphansKeyed.pruneExpiredOrphans_keeps
  cache := sheltering_orphansKeyed.cacheOrphanBlock_keeps
  taken hash h := h.erase hash rfl
  indexed _ h := h
  counted _ h := h
  requested _ _ _ h := h
  staged _ h := h

variable {block : Block} {turns : Nat}

def Node.taken (node : Node F) (hash : BlockHash) : Node F := { node with orphanBlocks := node.orphanBlocks.erase hash }

/-- A predicate of the stack, of the children that are still to be offered and of the node, which every turn
keeps. -/
structure Worklist (paqus : Paqus F) (J : List BlockHash → List BlockHash → Node F → Prop) : Prop where
  skip : ∀ {parent stack node}, J (parent :: stack) [] node →
    node.orphanChildrenByParent[parent]? = none → J stack [] node
  pop : ∀ {parent stack children node}, J (parent :: stack) [] node →
    node.orphanChildrenByParent[parent]? = some children →
      J stack children { node with orphanChildrenByParent := node.orphanChildrenByParent.erase parent }
  gone : ∀ {stack child rest node}, J stack (child :: rest) node → node.orphanBlocks[child]? = none → J stack rest node
  connected : ∀ {stack child rest node orphan next}, J stack (child :: rest) node →
    node.orphanBlocks[child]? = some orphan →
    applyKnownParentBlock paqus orphan.block (node.taken child) = .ok () next → J (child :: stack) rest next
  recached : ∀ {stack child rest node orphan next}, J stack (child :: rest) node →
    node.orphanBlocks[child]? = some orphan →
    applyKnownParentBlock paqus orphan.block (node.taken child) = .error (.forkChoice .missingParent) next →
      ∃ later, cacheOrphanBlock paqus orphan.block next = .ok () later ∧ J stack rest later
  dropped : ∀ {stack child rest node orphan error next}, J stack (child :: rest) node →
    node.orphanBlocks[child]? = some orphan →
    applyKnownParentBlock paqus orphan.block (node.taken child) = .error error next →
    error ≠ .forkChoice .missingParent → J stack rest next

def Node.pruned (node : Node F) : Node F :=
  let read : Node F := { node with clockReads := node.clockReads + 1 }
  (expiredOrphans read (node.clock node.clockReads)).foldl removeOrphan read

def Node.roomier (node : Node F) : Node F :=
  if node.orphanBlocks.size ≥ maxOrphanBlocks then
    match node.orphanBlocks.minKey? with
    | some evictedHash => removeOrphan node evictedHash
    | none => node
  else node

def Node.refuses (paqus : Paqus F) (node : Node F) (block : Block) (hash : BlockHash) : Bool :=
  block.height = 0 || orphanIsTooFarAhead node.ledger block || paqus.contains node.forkChoice hash ||
    node.orphanBlocks.contains hash

def Node.withOrphan (node : Node F) (block : Block) (hash : BlockHash) (now : Nat) : Node F :=
  { node with
    orphanChildrenByParent := node.orphanChildrenByParent.insert block.previousHash
      ((node.orphanChildrenByParent[block.previousHash]?).getD [] ++ [hash])
    orphanBlocks := node.orphanBlocks.insert hash ⟨block, now⟩ }

def Node.requesting (node : Node F) (requests : List BlockHash) (requestSet : BTreeMap BlockHash Unit)
    (retryAt : BTreeMap BlockHash Nat) (clockReads : Nat) : Node F :=
  { node with
    missingParentRequests := requests, missingParentRequestSet := requestSet
    missingParentRetryAt := retryAt, clockReads }

theorem cacheOrphanBlock_eq (hhash : paqus.blockHash block = .ok hash) (node : Node F) :
    cacheOrphanBlock paqus block node = .ok () (if node.pruned.refuses paqus block hash then node.pruned
      else (state (queueMissingParentRequest paqus block.previousHash node.pruned.roomier)).withOrphan block hash
        (node.clock node.clockReads)) := by
  unfold cacheOrphanBlock
  rw [currentUnixTimestamp_bind, bind_ok (pruneExpiredOrphans_apply _ _)]
  change (if block.height = 0 then _ else _ : NodeM F Unit) node.pruned = _
  unfold Node.refuses
  split
  next hzero => simp [hzero]
  next hzero =>
    rw [get_bind]
    split
    next hfar => simp [hfar]
    next hfar =>
      rw [hhash, liftExcept_ok, pure_bind, get_bind]
      split
      next hknown => simp [Bool.or_assoc, hknown]
      next hknown =>
        have hroom : (evictOrphan : NodeM F Unit) node.pruned = .ok () node.pruned.roomier := rfl
        obtain ⟨_, _, _, _, hqueue⟩ := queueMissingParentRequest_state paqus block.previousHash node.pruned.roomier
        rw [bind_ok hroom, bind_ok hqueue, hqueue]
        simp [hzero, hfar, hknown]
        rfl

theorem cacheOrphanBlock_unhashed {error : CodecError} (hhash : paqus.blockHash block = .error error) (node : Node F) :
    state (cacheOrphanBlock paqus block node) = node.pruned := by
  unfold cacheOrphanBlock
  rw [currentUnixTimestamp_bind, bind_ok (pruneExpiredOrphans_apply _ _)]
  split
  · rfl
  · rw [get_bind]
    split
    · rfl
    · rw [hhash]
      rfl

def Node.pooling (node : Node F) (orphanBlocks : BTreeMap BlockHash OrphanBlock)
    (orphanChildrenByParent : BTreeMap BlockHash (List BlockHash)) (clockReads : Nat) : Node F :=
  { node with orphanBlocks, orphanChildrenByParent, clockReads }

theorem foldl_removeOrphan_eq (hashes : List BlockHash) (node : Node F) :
    ∃ orphans index, hashes.foldl removeOrphan node = node.pooling orphans index node.clockReads := by
  induction hashes generalizing node with
  | nil => exact ⟨_, _, rfl⟩
  | cons hash rest ih => exact ih (removeOrphan node hash)

theorem Node.pruned_eq (node : Node F) :
    ∃ orphans index, node.pruned = node.pooling orphans index (node.clockReads + 1) :=
  foldl_removeOrphan_eq _ { node with clockReads := node.clockReads + 1 }

theorem Node.roomier_eq (node : Node F) :
    ∃ orphans index, node.roomier = node.pooling orphans index node.clockReads := by
  unfold Node.roomier
  split
  · split
    · exact ⟨_, _, rfl⟩
    · exact ⟨_, _, rfl⟩
  · exact ⟨_, _, rfl⟩

theorem cacheOrphanBlock_state (paqus : Paqus F) (block : Block) (node : Node F) :
    ∃ orphans index requests requestSet retryAt clockReads, state (cacheOrphanBlock paqus block node) =
      (node.pooling orphans index clockReads).requesting requests requestSet retryAt clockReads := by
  obtain ⟨orphans, index, hpruned⟩ := node.pruned_eq
  cases hhash : paqus.blockHash block with
  | error error =>
    rw [cacheOrphanBlock_unhashed hhash, hpruned]
    exact ⟨orphans, index, _, _, _, _, rfl⟩
  | ok hash =>
    obtain ⟨requests, requestSet, retryAt, clockReads, hqueue⟩ :=
      queueMissingParentRequest_state paqus block.previousHash node.pruned.roomier
    obtain ⟨orphans', index', hroomier⟩ := node.pruned.roomier_eq
    rw [cacheOrphanBlock_eq hhash, state_ok, hqueue, state_ok, hroomier, hpruned]
    split
    · exact ⟨orphans, index, _, _, _, _, rfl⟩
    · exact ⟨_, _, requests, requestSet, retryAt, clockReads, rfl⟩

theorem Node.size_roomier (node : Node F) : node.roomier.orphanBlocks.size ≤ node.orphanBlocks.size := by
  unfold Node.roomier
  split
  · split
    · exact Std.ExtTreeMap.size_erase_le
    · exact Nat.le_refl _
  · exact Nat.le_refl _

theorem size_cacheOrphanBlock (hhash : paqus.blockHash block = .ok hash)
    {next : Node F} (h : cacheOrphanBlock paqus block node = .ok () next) :
    next.orphanBlocks.size ≤ node.orphanBlocks.size + 1 := by
  obtain ⟨_, _, _, _, hqueue⟩ := queueMissingParentRequest_state paqus block.previousHash node.pruned.roomier
  cases (cacheOrphanBlock_eq hhash node).symm.trans h
  rw [hqueue, state_ok]
  have hpruned : node.pruned.orphanBlocks.size ≤ node.orphanBlocks.size :=
    List.foldlRecOn _ _ (motive := fun kept : Node F => kept.orphanBlocks.size ≤ node.orphanBlocks.size)
      (Nat.le_refl _) fun _ h _ _ => Nat.le_trans Std.ExtTreeMap.size_erase_le h
  split
  · omega
  · exact Nat.le_trans Std.ExtTreeMap.size_insert_le (Nat.succ_le_succ (Nat.le_trans node.pruned.size_roomier hpruned))

section Children

variable {child : BlockHash} {rest stack : List BlockHash} {node : Node F} {orphan : OrphanBlock}

theorem connectChildren_gone (h : node.orphanBlocks[child]? = none) :
    connectChildren paqus (child :: rest) stack node = connectChildren paqus rest stack node := by
  conv_lhs => unfold connectChildren
  rw [get_bind, h]

theorem connectChildren_found (h : node.orphanBlocks[child]? = some orphan) :
    connectChildren paqus (child :: rest) stack node =
      (match outcome (applyKnownParentBlock paqus orphan.block (node.taken child)) with
      | .ok _ => connectChildren paqus rest (child :: stack)
      | .error (.forkChoice .missingParent) => do
        cacheOrphanBlock paqus orphan.block
        connectChildren paqus rest stack
      | .error _ => connectChildren paqus rest stack : NodeM F (List BlockHash))
        (state (applyKnownParentBlock paqus orphan.block (node.taken child))) := by
  conv_lhs => unfold connectChildren
  rw [get_bind, h]
  change (attempt (applyKnownParentBlock paqus orphan.block) >>= _) (node.taken child) = _
  exact bind_ok (attempt_apply _ _)

theorem size_taken (h : node.orphanBlocks[child]? = some orphan) :
    (node.taken child).orphanBlocks.size + 1 = node.orphanBlocks.size := by
  have hmem : child ∈ node.orphanBlocks := Std.ExtTreeMap.mem_iff_isSome_getElem?.mpr (by rw [h]; rfl)
  have hless : (node.taken child).orphanBlocks.size = node.orphanBlocks.size - 1 := by
    unfold Node.taken
    rw [Std.ExtTreeMap.size_erase, if_pos (Std.ExtTreeMap.contains_iff_mem.mpr hmem)]
  have hpos : node.orphanBlocks.size ≠ 0 := fun hzero => by
    rw [Std.ExtTreeMap.eq_empty_iff_size_eq_zero.mpr hzero] at h
    simp at h
  omega

theorem size_applied (block : Block) (node : Node F) :
    (state (applyKnownParentBlock paqus block node)).orphanBlocks.size = node.orphanBlocks.size :=
  congrArg (fun pool : Node.Pool F => pool.orphanBlocks.size) (applyKnownParentBlock_pool paqus block node)

end Children

section Run

variable {J : List BlockHash → List BlockHash → Node F → Prop} (hJ : Worklist paqus J)
  (hkeyed : ∀ {stack children node}, J stack children node → OrphansKeyed paqus node)

include hJ hkeyed

theorem Worklist.connectChildren {children stack : List BlockHash} (h : J stack children node) :
    ∃ stack' next, PaqusNetwork.connectChildren paqus children stack node = .ok stack' next ∧ J stack' [] next ∧
      next.orphanBlocks.size + stack'.length ≤ node.orphanBlocks.size + stack.length := by
  induction children generalizing stack node with
  | nil => exact ⟨stack, node, rfl, h, Nat.le_refl _⟩
  | cons child rest ih =>
    cases hfound : node.orphanBlocks[child]? with
    | none =>
      rw [connectChildren_gone hfound]
      exact ih (hJ.gone h hfound)
    | some orphan =>
      have hsize := size_taken hfound
      have hsame : (state (applyKnownParentBlock paqus orphan.block (node.taken child))).orphanBlocks.size =
          (node.taken child).orphanBlocks.size := size_applied orphan.block (node.taken child)
      cases hrun : applyKnownParentBlock paqus orphan.block (node.taken child) with
      | ok _ next =>
        rw [hrun, state_ok] at hsame
        rw [connectChildren_found hfound, hrun]
        obtain ⟨stack', last, hlast, hJ', hbound⟩ := ih (hJ.connected h hfound hrun)
        refine ⟨stack', last, hlast, hJ', ?_⟩
        rw [List.length_cons] at hbound
        omega
      | error error next =>
        rw [hrun, state_error] at hsame
        by_cases herror : error = .forkChoice .missingParent
        · subst herror
          obtain ⟨later, hlater, hJ'⟩ := hJ.recached h hfound hrun
          have hcached := size_cacheOrphanBlock (hkeyed h child orphan hfound) hlater
          rw [connectChildren_found hfound, hrun]
          obtain ⟨stack', last, hlast, hJ'', hbound⟩ := ih hJ'
          exact ⟨stack', last, (bind_ok hlater).trans hlast, hJ'', by omega⟩
        · rw [connectChildren_found hfound, hrun]
          simp only [outcome_error, state_error]
          obtain ⟨stack', last, hlast, hJ', hbound⟩ := ih (hJ.dropped h hfound hrun herror)
          exact ⟨stack', last, hlast, hJ', by omega⟩

theorem Worklist.processParents {stack : List BlockHash} (h : J stack [] node)
    (hturns : node.orphanBlocks.size + stack.length ≤ turns) :
    ∃ next, PaqusNetwork.processParents paqus turns stack node = .ok () next ∧ J [] [] next := by
  induction turns generalizing stack node with
  | zero =>
    have hstack : stack = [] := List.length_eq_zero_iff.mp (by omega)
    subst hstack
    exact ⟨node, rfl, h⟩
  | succ turns ih =>
    cases stack with
    | nil => exact ⟨node, rfl, h⟩
    | cons parent stack =>
      rw [List.length_cons] at hturns
      rw [PaqusNetwork.processParents, get_bind]
      cases hindex : node.orphanChildrenByParent[parent]? with
      | none => exact ih (hJ.skip h hindex) (by omega)
      | some children =>
        obtain ⟨stack', next, hrun, hJ', hbound⟩ := hJ.connectChildren hkeyed (hJ.pop h hindex)
        obtain ⟨last, hlast, hend⟩ := ih hJ' (by dsimp only at hbound; omega)
        exact ⟨last, (bind_ok hrun).trans hlast, hend⟩

theorem Worklist.processOrphansForParent (h : J [hash] [] node.pruned) :
    ∃ next, PaqusNetwork.processOrphansForParent paqus hash node = .ok () next ∧ J [] [] next := by
  unfold PaqusNetwork.processOrphansForParent
  rw [currentUnixTimestamp_bind, bind_ok (pruneExpiredOrphans_apply _ _), get_bind]
  exact hJ.processParents hkeyed h (Nat.le_refl _)

end Run

theorem worklist_keyed (paqus : Paqus F) : Worklist paqus fun _ _ => OrphansKeyed paqus where
  skip h _ := h
  pop h _ := h
  gone h _ := h
  connected := by
    intro _ child _ node orphan next h _ hrun
    have happlied := served_orphansKeyed.connect orphan.block (node.taken child) (h.erase child rfl)
    rwa [hrun] at happlied
  recached := by
    intro _ child _ node orphan next h hfound hrun
    have happlied := served_orphansKeyed.connect orphan.block (node.taken child) (h.erase child rfl)
    rw [hrun] at happlied
    have hcached := sheltering_orphansKeyed.cacheOrphanBlock_keeps orphan.block next happlied
    have heq := cacheOrphanBlock_eq (h child orphan hfound) next
    rw [heq] at hcached
    exact ⟨_, heq, hcached⟩
  dropped := by
    intro _ child _ node orphan _ next h _ hrun _
    have happlied := served_orphansKeyed.connect orphan.block (node.taken child) (h.erase child rfl)
    rwa [hrun] at happlied

end PaqusNetwork
