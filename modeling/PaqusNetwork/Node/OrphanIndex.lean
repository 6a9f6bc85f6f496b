import PaqusNetwork.Node.Worklist
import PaqusNetwork.Reference.Sample

namespace PaqusNetwork

open Effect
open Std hiding compare_eq_iff_eq

variable {F : Type} {paqus : Paqus F}

def Node.childrenOf (node : Node F) (parent : BlockHash) : List BlockHash :=
  (node.orphanChildrenByParent[parent]?).getD []

/-- The index lists each orphan once, under its parent; the `children` have left the index to be offered. -/
structure Indexed (paqus : Paqus F) (children : List BlockHash) (node : Node F) : Prop where
  keyed : OrphansKeyed paqus node
  listed : ∀ {hash : BlockHash} {orphan : OrphanBlock}, node.orphanBlocks[hash]? = some orphan →
    hash ∈ node.childrenOf orphan.block.previousHash ∨ hash ∈ children
  cached : ∀ {parent hash}, hash ∈ node.childrenOf parent → hash ∉ children ∧
    ∃ orphan, node.orphanBlocks[hash]? = some orphan ∧ orphan.block.previousHash = parent
  once : ∀ parent, (node.childrenOf parent).Nodup
  children_once : children.Nodup
  nonempty : ∀ parent : BlockHash, node.orphanChildrenByParent[parent]? ≠ some []
  bounded : node.orphanBlocks.size ≤ maxOrphanBlocks
  raised : ∀ {hash : BlockHash} {orphan : OrphanBlock}, node.orphanBlocks[hash]? = some orphan → orphan.block.height ≠ 0

variable {node : Node F}

theorem Indexed.congr {children : List BlockHash} {node' : Node F} (h : Indexed paqus children node)
    (hpool : node'.orphanBlocks = node.orphanBlocks)
    (hindex : node'.orphanChildrenByParent = node.orphanChildrenByParent) : Indexed paqus children node' := by
  have hchildren : ∀ parent, node'.childrenOf parent = node.childrenOf parent := fun parent => by
    unfold Node.childrenOf
    rw [hindex]
  refine ⟨fun hash orphan hfound => h.keyed hash orphan (hpool ▸ hfound), fun hfound => ?_, fun hmem => ?_,
    fun parent => hchildren parent ▸ h.once parent, h.children_once, fun parent => hindex ▸ h.nonempty parent,
    hpool ▸ h.bounded, fun hfound => h.raised (hpool ▸ hfound)⟩
  · rw [hchildren]
    exact h.listed (hpool ▸ hfound)
  · rw [hchildren] at hmem
    rw [hpool]
    exact h.cached hmem

section Remove

variable (node : Node F) (hash : BlockHash)

theorem childrenOf_removeOrphan (parent : BlockHash) :
    (removeOrphan node hash).childrenOf parent = (node.childrenOf parent).filter (· != hash) := by
  unfold Node.childrenOf removeOrphan removeOrphanIndex
  rw [ExtTreeMap.getElem?_filterMap']
  cases node.orphanChildrenByParent[parent]? with
  | none => rfl
  | some children =>
    simp only [Option.bind_some, Option.getD_some]
    split
    next hempty => exact (List.isEmpty_iff.mp hempty).symm
    next => rfl

end Remove

variable {hash key : BlockHash} {orphan : OrphanBlock}

theorem getElem?_taken :
    (node.taken hash).orphanBlocks[key]? = some orphan ↔ hash ≠ key ∧ node.orphanBlocks[key]? = some orphan := by
  simp only [Node.taken, ExtTreeMap.getElem?_erase, compare_eq_iff_eq]
  split <;> simp_all

theorem Node.getElem?_pruned :
    node.pruned.orphanBlocks[key]? = some orphan ↔ node.orphanBlocks[key]? = some orphan ∧
      orphanExpired node.ledger (node.clock node.clockReads) orphan = false := by
  have hremoved : ∀ (hashes : List BlockHash) (start : Node F),
      (hashes.foldl removeOrphan start).orphanBlocks[key]? = some orphan ↔
        key ∉ hashes ∧ start.orphanBlocks[key]? = some orphan := by
    intro hashes
    induction hashes with
    | nil => simp
    | cons hash rest ih =>
      intro start
      rw [List.foldl_cons, ih, List.mem_cons, not_or, and_comm (a := key ≠ hash), and_assoc, ne_comm]
      exact and_congr_right fun _ => getElem?_taken
  unfold Node.pruned
  rw [hremoved, and_comm]
  refine and_congr_right fun hfound => ?_
  simp only [expiredOrphans, List.mem_filterMap, Prod.exists, Option.ite_none_right_eq_some, Option.some.injEq,
    ExtTreeMap.mem_toList_iff_getElem?_eq_some]
  rw [← Bool.not_eq_true, not_iff_not]
  constructor
  · rintro ⟨_, old, hold, hexpired, rfl⟩
    cases hold.symm.trans hfound
    exact hexpired
  · exact fun hexpired => ⟨key, orphan, hfound, hexpired, rfl⟩

section Steps

variable {children : List BlockHash}

theorem Indexed.removeOrphan (h : Indexed paqus children node) (hash : BlockHash) :
    Indexed paqus children (removeOrphan node hash) := by
  refine ⟨h.keyed.erase hash rfl, ?_, ?_, ?_, h.children_once, ?_, ?_,
    fun hfound => h.raised (getElem?_taken.mp hfound).2⟩
  · intro key orphan hfound
    obtain ⟨hne, hfound⟩ := getElem?_taken.mp hfound
    rw [childrenOf_removeOrphan, List.mem_filter]
    rcases h.listed hfound with hmem | hmem
    · exact .inl ⟨hmem, by simpa using Ne.symm hne⟩
    · exact .inr hmem
  · intro parent key hmem
    rw [childrenOf_removeOrphan, List.mem_filter] at hmem
    obtain ⟨hnot, orphan, hfound, hparent⟩ := h.cached hmem.1
    refine ⟨hnot, orphan, getElem?_taken.mpr ⟨?_, hfound⟩, hparent⟩
    rintro rfl
    simp at hmem
  · intro parent
    rw [childrenOf_removeOrphan]
    exact (h.once parent).filter _
  · intro parent
    unfold PaqusNetwork.removeOrphan removeOrphanIndex
    rw [ExtTreeMap.getElem?_filterMap']
    cases node.orphanChildrenByParent[parent]? with
    | none => simp
    | some listed =>
      simp only [Option.bind_some]
      split
      · simp
      next hkept => simpa using hkept
  · exact Nat.le_trans ExtTreeMap.size_erase_le h.bounded

theorem Indexed.pruned (h : Indexed paqus children node) : Indexed paqus children node.pruned :=
  List.foldlRecOn _ _ (h.congr rfl rfl) fun _ h hash _ => h.removeOrphan hash

theorem Indexed.roomier (h : Indexed paqus children node) :
    Indexed paqus children node.roomier ∧ node.roomier.orphanBlocks.size < maxOrphanBlocks ∧
      ∀ {hash : BlockHash} {orphan : OrphanBlock}, node.roomier.orphanBlocks[hash]? = some orphan →
        node.orphanBlocks[hash]? = some orphan := by
  unfold Node.roomier
  split
  next hfull =>
    split
    next evicted hmin =>
      have hmem := ExtTreeMap.minKey?_mem hmin
      obtain ⟨orphan, horphan⟩ := Option.isSome_iff_exists.mp (ExtTreeMap.mem_iff_isSome_getElem?.mp hmem)
      have hsize : (PaqusNetwork.removeOrphan node evicted).orphanBlocks.size + 1 = node.orphanBlocks.size :=
        size_taken horphan
      have hbounded := h.bounded
      exact ⟨h.removeOrphan evicted, by omega, fun hfound => (getElem?_taken.mp hfound).2⟩
    next hmin =>
      rw [ExtTreeMap.minKey?_eq_none_iff.mp hmin] at hfull
      exact absurd hfull (by decide)
  next hroom => exact ⟨h, by omega, fun hfound => hfound⟩

variable {block : Block}

section

variable (h : Indexed paqus children node)

include h

theorem Indexed.withOrphan {now : Nat} (hhash : paqus.blockHash block = .ok hash)
    (hheight : block.height ≠ 0) (hfresh : node.orphanBlocks[hash]? = none) (hchild : hash ∉ children)
    (hroom : node.orphanBlocks.size < maxOrphanBlocks) :
    Indexed paqus children (node.withOrphan block hash now) := by
  have hnew : ∀ parent, hash ∉ node.childrenOf parent := fun parent hmem => by
    obtain ⟨_, orphan, hfound, _⟩ := h.cached hmem
    rw [hfresh] at hfound
    cases hfound
  have hpool : ∀ key, (node.withOrphan block hash now).orphanBlocks[key]? =
      if hash = key then some ⟨block, now⟩ else node.orphanBlocks[key]? := fun key => by
    simp only [Node.withOrphan, ExtTreeMap.getElem?_insert, compare_eq_iff_eq]
  have hindex : ∀ parent, (node.withOrphan block hash now).childrenOf parent =
      if block.previousHash = parent then node.childrenOf parent ++ [hash] else node.childrenOf parent :=
    fun parent => by
      simp only [Node.withOrphan, Node.childrenOf, ExtTreeMap.getElem?_insert, compare_eq_iff_eq]
      split
      next heq => rw [heq]; rfl
      next => rfl
  refine ⟨h.keyed.insert hhash rfl, ?_, ?_, ?_, h.children_once, ?_, ?_, ?_⟩
  · intro key orphan hfound
    rw [hpool] at hfound
    rw [hindex]
    split at hfound
    next heq =>
      cases hfound
      exact .inl (by simp [heq])
    next =>
      rcases h.listed hfound with hmem | hmem
      · left
        split
        · exact List.mem_append_left _ hmem
        · exact hmem
      · exact .inr hmem
  · intro parent key hmem
    rw [hindex] at hmem
    rw [hpool]
    have hcases : key ∈ node.childrenOf parent ∨ (key = hash ∧ block.previousHash = parent) := by
      split at hmem
      next heq => simpa [heq] using hmem
      next => exact .inl hmem
    rcases hcases with hold | ⟨rfl, rfl⟩
    · obtain ⟨hnot, orphan, hfound, hparent⟩ := h.cached hold
      refine ⟨hnot, orphan, ?_, hparent⟩
      have hne : hash ≠ key := fun heq => hnew parent (heq ▸ hold)
      rw [if_neg hne, hfound]
    · exact ⟨hchild, ⟨block, now⟩, if_pos rfl, rfl⟩
  · intro parent
    rw [hindex]
    split
    · exact List.nodup_append.mpr ⟨h.once parent, List.nodup_singleton _, fun key hkey other hother heq =>
        hnew parent (by rw [← List.mem_singleton.mp hother, ← heq]; exact hkey)⟩
    · exact h.once parent
  · intro parent
    simp only [Node.withOrphan, ExtTreeMap.getElem?_insert]
    split
    · simp
    · exact h.nonempty parent
  · exact Nat.le_trans ExtTreeMap.size_insert_le hroom
  · intro key orphan hfound
    rw [hpool] at hfound
    split at hfound
    · cases hfound
      exact hheight
    · exact h.raised hfound

theorem Indexed.cacheOrphanBlock (hhash : paqus.blockHash block = .ok hash) (hchild : hash ∉ children) :
    ∃ next, cacheOrphanBlock paqus block node = .ok () next ∧ Indexed paqus children next := by
  obtain ⟨requests, requestSet, retryAt, clockReads, hqueue⟩ :=
    queueMissingParentRequest_state paqus block.previousHash node.pruned.roomier
  refine ⟨_, cacheOrphanBlock_eq hhash node, ?_⟩
  rw [hqueue, state_ok]
  split
  next => exact h.pruned
  next hopen =>
    simp only [Node.refuses, Bool.or_eq_true, decide_eq_true_eq, not_or, Bool.not_eq_true] at hopen
    obtain ⟨hroomier, hroom, hold⟩ := h.pruned.roomier
    have hfresh : node.pruned.roomier.orphanBlocks[hash]? = none := by
      cases hfound : node.pruned.roomier.orphanBlocks[hash]? with
      | none => rfl
      | some orphan =>
        have hmissing := ExtTreeMap.getElem?_eq_none_of_contains_eq_false hopen.2
        rw [hold hfound] at hmissing
        cases hmissing
    have hrequesting : Indexed paqus children
        (node.pruned.roomier.requesting requests requestSet retryAt clockReads) := hroomier.congr rfl rfl
    exact hrequesting.withOrphan hhash hopen.1.1.1 hfresh hchild hroom

theorem Indexed.applied (block : Block) : Indexed paqus children (state (applyKnownParentBlock paqus block node)) :=
  have hpool := applyKnownParentBlock_pool paqus block node
  h.congr (congrArg Node.Pool.orphanBlocks hpool) (congrArg Node.Pool.orphanChildrenByParent hpool)

end

variable {child : BlockHash}

theorem Indexed.taken (h : Indexed paqus (child :: children) node) : Indexed paqus children (node.taken child) := by
  refine ⟨h.keyed.erase child rfl, ?_, ?_, h.once, (List.nodup_cons.mp h.children_once).2, h.nonempty,
    Nat.le_trans ExtTreeMap.size_erase_le h.bounded, fun hfound => h.raised (getElem?_taken.mp hfound).2⟩
  · intro key orphan hfound
    obtain ⟨hne, hfound⟩ := getElem?_taken.mp hfound
    rcases h.listed hfound with hmem | hmem
    · exact .inl hmem
    · exact .inr ((List.mem_cons.mp hmem).resolve_left (Ne.symm hne))
  · intro parent key hmem
    obtain ⟨hnot, orphan, hfound, hparent⟩ := h.cached hmem
    rw [List.mem_cons, not_or] at hnot
    exact ⟨hnot.2, orphan, getElem?_taken.mpr ⟨Ne.symm hnot.1, hfound⟩, hparent⟩

theorem Indexed.gone (h : Indexed paqus (child :: children) node)
    (hgone : node.orphanBlocks[child]? = none) : Indexed paqus children node := by
  refine ⟨h.keyed, fun hfound => ?_, fun hmem => ?_, h.once, (List.nodup_cons.mp h.children_once).2, h.nonempty,
    h.bounded, h.raised⟩
  · rcases h.listed hfound with hmem | hmem
    · exact .inl hmem
    · rcases List.mem_cons.mp hmem with rfl | hmem
      · rw [hgone] at hfound
        cases hfound
      · exact .inr hmem
  · obtain ⟨hnot, hcached⟩ := h.cached hmem
    exact ⟨fun hlater => hnot (List.mem_cons_of_mem _ hlater), hcached⟩

theorem Indexed.popped (h : Indexed paqus [] node) {parent : BlockHash} {popped : List BlockHash}
    (hindex : node.orphanChildrenByParent[parent]? = some popped) :
    Indexed paqus popped
      { node with orphanChildrenByParent := node.orphanChildrenByParent.erase parent } := by
  have hpopped : node.childrenOf parent = popped := by
    unfold Node.childrenOf
    rw [hindex]
    rfl
  have hothers : ∀ key, Node.childrenOf { node with
      orphanChildrenByParent := node.orphanChildrenByParent.erase parent } key =
      if parent = key then [] else node.childrenOf key := fun key => by
    simp only [Node.childrenOf, ExtTreeMap.getElem?_erase, compare_eq_iff_eq]
    split <;> rfl
  refine ⟨h.keyed, ?_, ?_, ?_, hpopped ▸ h.once parent, ?_, h.bounded, h.raised⟩
  · intro key orphan hfound
    have hmem := (h.listed hfound).resolve_right List.not_mem_nil
    rw [hothers]
    split
    next heq => exact .inr (by rw [← hpopped, heq]; exact hmem)
    next => exact .inl hmem
  · intro other key hmem
    rw [hothers] at hmem
    split at hmem
    · cases hmem
    next hne =>
      obtain ⟨_, orphan, hfound, hparent⟩ := h.cached hmem
      refine ⟨fun hpop => ?_, orphan, hfound, hparent⟩
      rw [← hpopped] at hpop
      obtain ⟨_, orphan', hfound', hparent'⟩ := h.cached hpop
      cases hfound.symm.trans hfound'
      exact hne (hparent'.symm.trans hparent)
  · intro other
    rw [hothers]
    split
    · exact List.nodup_nil
    · exact h.once other
  · intro other
    simp only [ExtTreeMap.getElem?_erase]
    split
    · simp
    · exact h.nonempty other

end Steps

theorem worklist_indexed (paqus : Paqus F) : Worklist paqus fun _ children => Indexed paqus children where
  skip h _ := h
  pop h hindex := h.popped hindex
  gone h hgone := h.gone hgone
  connected := by
    intro _ _ _ _ orphan _ h _ hrun
    have happlied := h.taken.applied orphan.block
    rw [hrun] at happlied
    exact happlied
  recached := by
    intro _ child _ node orphan next h hfound hrun
    have happlied := h.taken.applied orphan.block
    rw [hrun] at happlied
    exact happlied.cacheOrphanBlock (h.keyed child orphan hfound) (List.nodup_cons.mp h.children_once).1
  dropped := by
    intro _ _ _ _ orphan _ _ h _ hrun _
    have happlied := h.taken.applied orphan.block
    rw [hrun] at happlied
    exact happlied

/-- `apply_block` keeps the index, whether it succeeds or fails. -/
theorem Indexed.applyBlock (h : Indexed paqus [] node) (block : Block) :
    Indexed paqus [] (state (applyBlock paqus block node)) := by
  unfold PaqusNetwork.applyBlock
  rw [currentUnixTimestamp_bind, bind_ok (pruneExpiredOrphans_apply _ _), bind_ok (attempt_apply _ _)]
  change Indexed paqus [] (state (finishBlock paqus block (outcome (applyKnownParentBlock paqus block node.pruned))
    (state (applyKnownParentBlock paqus block node.pruned))))
  have happlied := h.pruned.applied block
  generalize state (applyKnownParentBlock paqus block node.pruned) = next at happlied ⊢
  generalize outcome (applyKnownParentBlock paqus block node.pruned) = result
  unfold finishBlock
  split
  · cases hhash : paqus.blockHash block with
    | error error => exact happlied
    | ok hash =>
      rw [liftExcept_ok, pure_bind]
      have hpruned := happlied.pruned
      obtain ⟨last, hlast, hindexed⟩ : ∃ last, processOrphansForParent paqus hash next = .ok () last ∧
          Indexed paqus [] last :=
        (worklist_indexed paqus).processOrphansForParent (fun h => h.keyed) hpruned
      rw [hlast]
      exact hindexed
  · cases hhash : paqus.blockHash block with
    | error error =>
      rw [cacheOrphanBlock_unhashed hhash]
      exact happlied.pruned
    | ok hash =>
      obtain ⟨last, hlast, hindexed⟩ := happlied.cacheOrphanBlock hhash List.not_mem_nil
      rw [hlast]
      exact hindexed
  · exact happlied
  · exact happlied
  · exact happlied.congr rfl rfl

theorem stable_indexed (paqus : Paqus F) : Stable paqus (Indexed paqus []) :=
  ⟨fun _ h => h.congr rfl rfl, fun _ h => h.congr rfl rfl, fun _ h => h.congr rfl rfl⟩

theorem Indexed.after (h : Indexed paqus [] node) (call : NodeCall) : Indexed paqus [] (call.after paqus node) := by
  have hstable := stable_indexed paqus
  cases call with
  | applyBlock block => exact h.applyBlock block
  | submit transaction => exact hstable.submitProtocolTransaction_keeps transaction node h
  | evictByPolicy now => exact hstable.onMempool_keeps (fun _ _ => .evicted now) node h
  | removeConfirmed block => exact hstable.onMempool_keeps (fun _ _ => .confirmed block) node h
  | retryRollbackIssue id => exact hstable.retryRollbackIssue_keeps id node h
  | drainMissingParents => exact h.congr rfl rfl
  | retryMissingParent hash =>
    simp only [NodeCall.after, retryMissingParentRequest]
    rw [currentUnixTimestamp_bind]
    simp only [queueMissingParentRequestAt, modify_apply, state_ok]
    split
    · exact h.congr rfl rfl
    · exact h.congr rfl rfl
  | stageCompact hash compact => exact h.congr rfl rfl
  | takeCompact hash => exact h.congr rfl rfl

theorem Indexed.empty (hpool : node.orphanBlocks = ∅)
    (hindex : node.orphanChildrenByParent = ∅) : Indexed paqus [] node := by
  have hnone : ∀ {hash : BlockHash} {orphan : OrphanBlock}, node.orphanBlocks[hash]? ≠ some orphan := by
    intro hash orphan hfound
    simp [hpool] at hfound
  have hchildren : ∀ parent, node.childrenOf parent = [] := fun parent => by
    simp [Node.childrenOf, hindex]
  refine ⟨fun _ _ hfound => absurd hfound hnone, fun hfound => absurd hfound hnone, fun hmem => ?_,
    fun parent => by simp [hchildren], List.nodup_nil, fun parent => by simp [hindex],
    by simp [hpool], fun hfound => absurd hfound hnone⟩
  rw [hchildren] at hmem
  cases hmem

/-- The states of a node that `init_or_load` built from the ledger of a database; the pool gets its
configuration right after. -/
def Launched (paqus : Paqus F) (node : Node F) : Prop :=
  ∃ ledger storage consensus accounts clock config built start,
    tryWithGenesisAccounts paqus ledger storage consensus accounts clock = .ok built ∧
      indexStoredBlocks paqus built = .ok () start ∧
      Run paqus { start with mempool := Mempool.withConfig config } node

theorem Reachable.launched (h : Reachable paqus node) : Launched paqus node := by
  obtain ⟨faults, consensus, clock, config, start, hstart, hrun⟩ := h
  obtain ⟨stored, storage, built, _, htry, hindex⟩ := initFresh_eq_ok hstart
  exact ⟨stored.1, storage, consensus, stored.2, clock, config, built, start, htry, hindex, hrun⟩

theorem Launched.invariant {J : Node F → Prop} (h : Launched paqus node)
    (hstart : ∀ node : Node F, node.orphanBlocks = ∅ → node.orphanChildrenByParent = ∅ → J node)
    (hcall : ∀ (node : Node F) (call : NodeCall), J node → J (call.after paqus node)) : J node := by
  obtain ⟨ledger, storage, consensus, accounts, clock, config, built, start, htry, hindex, hrun⟩ := h
  obtain ⟨forkChoice, database, rfl⟩ := indexStoredBlocks_built hindex
  simp only [tryWithGenesisAccounts, Effect.except_bind_eq_ok, Effect.mapError_eq_ok] at htry
  obtain ⟨cache, _, graph, _, hbuilt⟩ := htry
  cases hbuilt
  induction hrun with
  | start => exact hstart _ rfl rfl
  | step call _ ih => exact hcall _ call ih

theorem Launched.indexed (h : Launched paqus node) : Indexed paqus [] node :=
  h.invariant (fun _ hpool hindex => Indexed.empty hpool hindex) fun _ call hnode => hnode.after call

/-- In every state the index by parent lists exactly the orphans, each once and under its parent, and there
are at most 1024 of them. -/
theorem Launched.orphans_listed {node : Node F} (h : Launched paqus node) :
    (∀ hash : BlockHash, hash ∈ node.orphanBlocks ↔
      ∃ (parent : BlockHash) (children : List BlockHash),
        node.orphanChildrenByParent[parent]? = some children ∧ hash ∈ children) ∧
    (∀ (hash : BlockHash) (orphan : OrphanBlock), node.orphanBlocks[hash]? = some orphan →
      ∀ parent, (node.childrenOf parent).count hash = if parent = orphan.block.previousHash then 1 else 0) ∧
    (∀ (parent : BlockHash) (children : List BlockHash),
      node.orphanChildrenByParent[parent]? = some children → children ≠ []) ∧
    node.orphanBlocks.size ≤ 1024 ∧
    ∀ (hash : BlockHash) (orphan : OrphanBlock), node.orphanBlocks[hash]? = some orphan →
      orphan.block.height ≠ 0 := by
  have hindexed := h.indexed
  have hlisted : ∀ {hash : BlockHash} {orphan : OrphanBlock}, node.orphanBlocks[hash]? = some orphan →
      hash ∈ node.childrenOf orphan.block.previousHash := by
    intro hash orphan hfound
    rcases hindexed.listed hfound with hmem | hmem
    · exact hmem
    · cases hmem
  refine ⟨fun hash => ⟨fun hmem => ?_, ?_⟩, fun hash orphan hfound parent => ?_,
    fun parent children hfound hempty => hindexed.nonempty parent (hempty ▸ hfound), hindexed.bounded,
    fun hash orphan hfound => hindexed.raised hfound⟩
  · obtain ⟨orphan, hfound⟩ := Option.isSome_iff_exists.mp (ExtTreeMap.isSome_getElem?_iff_mem.mpr hmem)
    have hchild := hlisted hfound
    unfold Node.childrenOf at hchild
    cases hchildren : node.orphanChildrenByParent[orphan.block.previousHash]? with
    | none => rw [hchildren] at hchild; cases hchild
    | some children =>
      rw [hchildren] at hchild
      exact ⟨_, children, hchildren, hchild⟩
  · rintro ⟨parent, children, hchildren, hmem⟩
    have hchild : hash ∈ node.childrenOf parent := by
      unfold Node.childrenOf
      rw [hchildren]
      exact hmem
    obtain ⟨_, orphan, hfound, _⟩ := hindexed.cached hchild
    exact ExtTreeMap.isSome_getElem?_iff_mem.mp (hfound ▸ rfl)
  · split
    next heq =>
      subst heq
      exact List.count_eq_one_of_mem (hindexed.once _) (hlisted hfound)
    next hne =>
      refine List.count_eq_zero.mpr fun hmem => hne ?_
      obtain ⟨_, other, hother, hparent⟩ := hindexed.cached hmem
      rw [hfound] at hother
      cases hother
      exact hparent.symm

namespace Reference

theorem waiting_listed : ∃ node, Launched (protocol 2) node ∧ node.orphanBlocks.size = 1 ∧
    (node.childrenOf 212).count 213 = 1 := by
  obtain ⟨node, hnode, hsize, hparent⟩ : ∃ node, sampleRun 2
      [.applyBlock (((Tip.genesis.next 211 1 []).next 212 1 []).next 213 1 []).block,
        .applyBlock ((Tip.genesis.next 111 1 []).next 112 1 []).block,
        .applyBlock (Tip.genesis.next 111 1 []).block] = .ok node ∧ node.orphanBlocks.size = 1 ∧
      (node.orphanBlocks[213]?).map (fun orphan => orphan.block.previousHash) = some 212 :=
    Effect.exists_ok_and (by decide +kernel)
  obtain ⟨orphan, hfound, hparent⟩ := Option.map_eq_some_iff.mp hparent
  have hlaunched := (sampleRun_reachable hnode).launched
  have hcount := (Launched.orphans_listed hlaunched).2.1 213 orphan hfound 212
  rw [hparent, if_pos rfl] at hcount
  exact ⟨node, hlaunched, hsize, hcount⟩

end Reference

end PaqusNetwork
