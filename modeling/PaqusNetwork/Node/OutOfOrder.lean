import PaqusNetwork.Node.Atomic
import PaqusNetwork.Node.RequestQueue

namespace PaqusNetwork

open Effect Numeric Std

variable {F : Type} {paqus : Paqus F}

/-- `apply_block` returns, the block is in the orphan pool, its parent is queued for download, and no
failure is counted. -/
structure KeptAsOrphan (paqus : Paqus F) (node : Node F) (block : Block) (hash : BlockHash) : Prop where
  applied : outcome (applyBlock paqus block node) = .ok ()
  pooled : hash ∈ (state (applyBlock paqus block node)).orphanBlocks
  requested : block.previousHash ∈ (state (applyBlock paqus block node)).missingParentRequests
  uncounted : (state (applyBlock paqus block node)).blockValidationFailuresTotal = node.blockValidationFailuresTotal

def Node.orphansLeft (node : Node F) (block : Block) : BTreeMap BlockHash OrphanBlock :=
  (node.offered block).pruned.orphanBlocks

/-- The node has no checkpoint; if the block is in the pool, or its parent is marked as requested, then the
parent is queued. -/
structure AwaitsParent (paqus : Paqus F) (node : Node F) (block : Block) (hash : BlockHash) : Prop where
  unanchored : node.ledger.chain.checkpointHeight = none
  unknown : hash ∈ node.orphansLeft block ∨ paqus.fork.get node.forkChoice hash = none
  queued : hash ∈ node.orphansLeft block ∨ block.previousHash ∈ node.missingParentRequestSet →
    block.previousHash ∈ node.missingParentRequests

theorem Paqus.contains_eq_false_iff {forkChoice : F} {hash : BlockHash} :
    paqus.contains forkChoice hash = false ↔ paqus.fork.get forkChoice hash = none :=
  Option.isSome_eq_false_iff.trans Option.isNone_iff_eq_none

theorem queueMissingParentRequest_queued {hash : BlockHash} {node : Node F}
    (hunknown : paqus.contains node.forkChoice hash = false) :
    hash ∈ (state (queueMissingParentRequest paqus hash node)).missingParentRequests ↔
      (hash ∈ node.missingParentRequestSet → hash ∈ node.missingParentRequests) := by
  unfold queueMissingParentRequest
  rw [get_bind, hunknown]
  simp only [Bool.false_eq_true, if_false]
  rw [currentUnixTimestamp_bind]
  unfold queueMissingParentRequestAt
  rw [modify_apply, state_ok, hunknown, if_neg Bool.false_ne_true]
  dsimp only
  by_cases hmarked : hash ∈ node.missingParentRequestSet
  · rw [if_pos (ExtTreeMap.contains_iff_mem.mpr hmarked)]
    exact ⟨fun hqueued _ => hqueued, fun himplies => himplies hmarked⟩
  · have hfree : ¬node.missingParentRequestSet.contains hash = true := by
      rwa [ExtTreeMap.contains_iff_mem]
    rw [if_neg hfree]
    exact ⟨fun _ hm => absurd hm hmarked, fun _ => List.mem_append_right _ List.mem_cons_self⟩

section Cache

variable {block : Block} {hash : BlockHash} {node : Node F}

theorem cacheOrphanBlock_refused (hhash : paqus.blockHash block = .ok hash)
    (hrefused : node.pruned.refuses paqus block hash = true) :
    cacheOrphanBlock paqus block node = .ok () node.pruned := by
  rw [cacheOrphanBlock_eq hhash, if_pos hrefused]

theorem cacheOrphanBlock_taken (hhash : paqus.blockHash block = .ok hash)
    (hunknown : paqus.contains node.forkChoice block.previousHash = false)
    (htaken : node.pruned.refuses paqus block hash = false) :
    ∃ next, cacheOrphanBlock paqus block node = .ok () next ∧ hash ∈ next.orphanBlocks ∧
      next.blockValidationFailuresTotal = node.blockValidationFailuresTotal ∧
      (block.previousHash ∈ next.missingParentRequests ↔
        (block.previousHash ∈ node.missingParentRequestSet →
          block.previousHash ∈ node.missingParentRequests)) := by
  obtain ⟨orphans, index, hpruned⟩ := node.pruned_eq
  obtain ⟨orphans', index', hroomier⟩ := node.pruned.roomier_eq
  have hqueued : block.previousHash ∈
      (state (queueMissingParentRequest paqus block.previousHash node.pruned.roomier)).missingParentRequests ↔
      (block.previousHash ∈ node.missingParentRequestSet →
        block.previousHash ∈ node.missingParentRequests) := by
    rw [hroomier, hpruned]
    exact queueMissingParentRequest_queued hunknown
  have hcount : node.pruned.roomier.blockValidationFailuresTotal = node.blockValidationFailuresTotal := by
    rw [hroomier, hpruned]
    rfl
  obtain ⟨_, _, _, _, hqueue⟩ := queueMissingParentRequest_state paqus block.previousHash node.pruned.roomier
  refine ⟨_, cacheOrphanBlock_eq hhash node, ?_⟩
  rw [htaken, if_neg Bool.false_ne_true]
  rw [hqueue, state_ok] at hqueued ⊢
  exact ⟨ExtTreeMap.mem_insert_self, hcount, hqueued⟩

end Cache

section Main

variable {node : Node F} {block : Block} {hash : BlockHash}

theorem connectBlock_invalid {error : NodeError}
    (h : node.toCore.validateBlockForKnownParent paqus block = .error error) :
    connectBlock paqus block node = .error error node := by
  unfold connectBlock
  rw [get_bind, h]
  rfl

theorem Core.validate_orphan {core : Core F} (hheight : 0 < block.height)
    (hparent : paqus.fork.get core.forkChoice block.previousHash = none)
    (hunanchored : core.ledger.chain.checkpointHeight = none) :
    core.validateBlockForKnownParent paqus block = .error (.forkChoice .missingParent) := by
  have hzero : block.height ≠ 0 := by omega
  simp only [Core.validateBlockForKnownParent, Core.validateCheckpoint, hunanchored, hzero, if_false, hparent]
  rfl

theorem Core.validate_anchored (indexing : IndexingLaws paqus) {core : Core F} {checkpoint : Nat}
    (hparent : paqus.fork.get core.forkChoice block.previousHash = none)
    (hanchored : core.ledger.chain.checkpointHeight = some checkpoint) (habove : checkpoint < block.height) :
    core.validateBlockForKnownParent paqus block = .error .missingCommonAncestor := by
  have hancestor := indexing.ancestor_at_unknown checkpoint hparent
  simp only [Core.validateBlockForKnownParent, Core.validateCheckpoint, hanchored, hancestor,
    if_neg (Nat.not_le.mpr habove)]
  rfl

theorem Node.offered_pool (node : Node F) (block : Block) : ∃ orphans index,
    node.offered block = (node.pooling orphans index (node.clockReads + 1)).noted block := by
  obtain ⟨orphans, index, hpruned⟩ := node.pruned_eq
  exact ⟨orphans, index, by rw [Node.offered, hpruned]⟩

theorem refuses_near (hheight : 0 < block.height) (hrange : block.height ≤ u64Max)
    (hnear : block.height ≤ node.ledger.tipHeight.getD 0 + maxOrphanHeightDistance) :
    node.refuses paqus block hash = (paqus.contains node.forkChoice hash || node.orphanBlocks.contains hash) := by
  have hzero : decide (block.height = 0) = false := decide_eq_false (by omega)
  have hnot : orphanIsTooFarAhead node.ledger block = false := by
    refine decide_eq_false (Nat.not_lt.mpr ?_)
    exact Nat.le_min.mpr ⟨hnear, hrange⟩
  simp [Node.refuses, hzero, hnot]

theorem applyBlock_anchored (indexing : IndexingLaws paqus) {checkpoint : Nat}
    (hparent : paqus.fork.get node.forkChoice block.previousHash = none)
    (hanchored : node.ledger.chain.checkpointHeight = some checkpoint) (habove : checkpoint < block.height) :
    outcome (applyBlock paqus block node) = .error .missingCommonAncestor := by
  obtain ⟨orphans, index, hoffered⟩ := node.offered_pool block
  have hcore : (node.offered block).toCore = node.toCore := by rw [hoffered]; rfl
  have hinvalid := Core.validate_anchored indexing hparent hanchored habove
  rw [← hcore] at hinvalid
  rw [applyBlock_eq, connectBlock_invalid hinvalid, outcome_error, state_error, finishBlock_returned rfl, outcome_error]

theorem applyBlock_orphan (hheight : 0 < block.height)
    (hparent : paqus.fork.get node.forkChoice block.previousHash = none)
    (hunanchored : node.ledger.chain.checkpointHeight = none) :
    applyBlock paqus block node = cacheOrphanBlock paqus block (node.offered block) := by
  obtain ⟨orphans, index, hoffered⟩ := node.offered_pool block
  have hcore : (node.offered block).toCore = node.toCore := by rw [hoffered]; rfl
  have hinvalid := Core.validate_orphan hheight hparent hunanchored
  rw [← hcore] at hinvalid
  rw [applyBlock_eq, connectBlock_invalid hinvalid]
  rfl

theorem keptAsOrphan_refused (hrun : applyBlock paqus block node = .ok () (node.offered block).pruned) :
    KeptAsOrphan paqus node block hash ↔
      hash ∈ node.orphansLeft block ∧ block.previousHash ∈ node.missingParentRequests := by
  obtain ⟨orphans, index, hoffered⟩ := node.offered_pool block
  obtain ⟨orphans', index', hpruned⟩ := (node.offered block).pruned_eq
  have hqueue : (node.offered block).pruned.missingParentRequests = node.missingParentRequests := by
    rw [hpruned, hoffered]
    rfl
  constructor
  · rintro ⟨_, hpooled, hrequested, _⟩
    rw [hrun, state_ok] at hpooled hrequested
    exact ⟨hpooled, hqueue ▸ hrequested⟩
  · rintro ⟨hpooled, hrequested⟩
    refine ⟨by rw [hrun, outcome_ok], ?_, ?_, ?_⟩
    · rw [hrun, state_ok]
      exact hpooled
    · rw [hrun, state_ok, hqueue]
      exact hrequested
    · rw [hrun, state_ok, hpruned, hoffered]
      rfl

/-- A block without its parent is kept, its parent requested and no failure counted exactly under the
condition. -/
theorem applyBlock_keepsOrphan_iff (indexing : IndexingLaws paqus) (node : Node F)
    (hhash : paqus.blockHash block = .ok hash)
    (hparent : paqus.fork.get node.forkChoice block.previousHash = none) (hheight : 0 < block.height)
    (hrange : block.height ≤ u64Max)
    (habove : ∀ checkpoint ∈ node.ledger.chain.checkpointHeight, checkpoint < block.height)
    (hnear : block.height ≤ node.ledger.tipHeight.getD 0 + maxOrphanHeightDistance) :
    KeptAsOrphan paqus node block hash ↔ AwaitsParent paqus node block hash := by
  cases hcheckpoint : node.ledger.chain.checkpointHeight with
  | some checkpoint =>
    have hrun := applyBlock_anchored indexing hparent hcheckpoint (habove checkpoint hcheckpoint)
    constructor
    · intro hkept
      rw [hkept.applied] at hrun
      cases hrun
    · intro hawaits
      rw [hawaits.unanchored] at hcheckpoint
      cases hcheckpoint
  | none =>
    have hrun := applyBlock_orphan hheight hparent hcheckpoint
    obtain ⟨orphans, index, hoffered⟩ := node.offered_pool block
    have hrefuses : (node.offered block).pruned.refuses paqus block hash = true ↔
        paqus.fork.get node.forkChoice hash ≠ none ∨ hash ∈ node.orphansLeft block := by
      obtain ⟨orphans', index', hpruned⟩ := (node.offered block).pruned_eq
      have hcore : (node.offered block).pruned.toCore = node.toCore := by rw [hpruned, hoffered]; rfl
      rw [refuses_near hheight hrange (by rw [hcore]; exact hnear), hcore, Bool.or_eq_true,
        ExtTreeMap.contains_iff_mem, Paqus.contains, Option.isSome_iff_ne_none]
      exact Iff.rfl
    by_cases hrefused : (node.offered block).pruned.refuses paqus block hash = true
    · rw [cacheOrphanBlock_refused hhash hrefused] at hrun
      rw [keptAsOrphan_refused hrun]
      constructor
      · rintro ⟨hpooled, hqueued⟩
        exact ⟨hcheckpoint, .inl hpooled, fun _ => hqueued⟩
      · rintro ⟨_, hunknown, hqueued⟩
        have hpooled : hash ∈ node.orphansLeft block :=
          hunknown.elim id fun hnone => (hrefuses.mp hrefused).resolve_left (absurd hnone)
        exact ⟨hpooled, hqueued (.inl hpooled)⟩
    · have hfree := not_or.mp (mt hrefuses.mpr hrefused)
      have hunknown : paqus.contains (node.offered block).forkChoice block.previousHash = false := by
        rw [hoffered]
        exact Paqus.contains_eq_false_iff.mpr hparent
      obtain ⟨next, hnext, hpooled, hcount, hqueued⟩ :=
        cacheOrphanBlock_taken hhash hunknown (Bool.eq_false_iff.mpr hrefused)
      rw [hoffered] at hcount hqueued
      rw [hnext] at hrun
      constructor
      · rintro ⟨_, _, hrequested, _⟩
        rw [hrun, state_ok] at hrequested
        refine ⟨hcheckpoint, .inr (not_not.mp hfree.1), fun hcases => ?_⟩
        exact hqueued.mp hrequested (hcases.resolve_left hfree.2)
      · rintro ⟨_, _, hmarked⟩
        refine ⟨by rw [hrun, outcome_ok], ?_, ?_, ?_⟩
        · rw [hrun, state_ok]
          exact hpooled
        · rw [hrun, state_ok]
          exact hqueued.mpr fun hm => hmarked (.inr hm)
        · rw [hrun, state_ok]
          exact hcount

end Main

namespace Reference

def early : Block := (((Tip.genesis.next 111 1 []).next 112 1 []).next 113 1 []).block

theorem early_kept : ∃ node, sampleRun 2 [] = .ok node ∧
    (protocol 2).fork.get node.forkChoice early.previousHash = none ∧
    KeptAsOrphan (protocol 2) node early 113 := by
  obtain ⟨node, hnode, hparent, hfresh, hcheckpoint, htip, hmarks, hpool⟩ : ∃ node, sampleRun 2 [] = .ok node ∧
      (protocol 2).contains node.forkChoice early.previousHash = false ∧
      (protocol 2).contains node.forkChoice 113 = false ∧ node.ledger.chain.checkpointHeight = none ∧
      node.ledger.tipHeight = some 0 ∧ node.missingParentRequestSet.isEmpty ∧ (node.orphansLeft early).isEmpty :=
    exists_ok_and (by decide +kernel)
  simp only [ExtTreeMap.isEmpty_iff, Paqus.contains_eq_false_iff] at hparent hfresh hmarks hpool
  have hiff := applyBlock_keepsOrphan_iff (indexing_laws 2) node (show (protocol 2).blockHash early = .ok 113 by
    decide +kernel) hparent (by decide +kernel) (by decide +kernel) (by simp [hcheckpoint]) (by
    rw [htip]
    decide +kernel)
  exact ⟨node, hnode, hparent, hiff.mpr ⟨hcheckpoint, .inr hfresh, by simp [hmarks, hpool]⟩⟩

/-- A node with the block above the genesis block as its checkpoint, and only the header below it. -/
def anchoredNode : Except NodeError (Node ForkTree) :=
  let first := Tip.genesis.next 111 1 []
  let chain : Chain :=
    { first.ledger.chain with blocks := first.ledger.chain.blocks.erase 0, checkpointHeight := some 1 }
  tryWithGenesisAccounts (protocol 2) { first.ledger with chain } (Storage.empty fun _ => none) ⟨1⟩
    Tip.genesis.ledger.accounts fun _ => 0

/-- With a checkpoint the early block is an error, is counted, and is not kept. -/
theorem early_refused : ∃ node, anchoredNode = .ok node ∧
    node.ledger.chain.checkpointHeight = some 1 ∧ node.ledger.tipHeight = some 1 ∧ early.height = 3 ∧
    (protocol 2).blockHash early = .ok 113 ∧
    (protocol 2).fork.get node.forkChoice early.previousHash = none ∧
    outcome (applyBlock (protocol 2) early node) = .error .missingCommonAncestor ∧
    (state (applyBlock (protocol 2) early node)).orphanBlocks = ∅ ∧
    (state (applyBlock (protocol 2) early node)).missingParentRequests = [] ∧
    (node.blockValidationFailuresTotal,
      (state (applyBlock (protocol 2) early node)).blockValidationFailuresTotal) = (0, 1) ∧
    ¬KeptAsOrphan (protocol 2) node early 113 := by
  obtain ⟨node, hnode, hparent, hpool⟩ : ∃ node, anchoredNode = .ok node ∧
      (protocol 2).contains node.forkChoice early.previousHash = false ∧
      (state (applyBlock (protocol 2) early node)).orphanBlocks.isEmpty := exists_ok_and (by decide +kernel)
  have houtcome : outcome (applyBlock (protocol 2) early node) = .error .missingCommonAncestor :=
    of_ok hnode (by decide +kernel)
  refine ⟨node, hnode, of_ok hnode (by decide +kernel), of_ok hnode (by decide +kernel), by decide +kernel,
    by decide +kernel, Paqus.contains_eq_false_iff.mp hparent, houtcome, ExtTreeMap.isEmpty_iff.mp hpool,
    of_ok hnode (by decide +kernel), of_ok hnode (by decide +kernel), fun hkept => ?_⟩
  rw [hkept.applied] at houtcome
  cases houtcome

end Reference

end PaqusNetwork
