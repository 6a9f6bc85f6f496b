import PaqusNetwork.Node.BestTip
import PaqusNetwork.Node.OrphanIndex

namespace PaqusNetwork

open Effect

variable {F : Type} {paqus : Paqus F} {ranking : Ranking}

/-- Every branch of the graph that ends in the hash goes through the block. -/
def Under (paqus : Paqus F) (root : ForkNode) (f : F) (hash : BlockHash) : Prop :=
  ∀ path, Branch paqus f hash path → root ∈ path

def Beyond (paqus : Paqus F) (root : ForkNode) (core : Core F) : Prop :=
  ∃ tip own rest, own ≠ [] ∧ OnBranch paqus core.genesisAccounts core.forkChoice core.ledger tip (own ++ root :: rest)

variable {block : Block} {hash : BlockHash} (laws : ProtocolLaws paqus ranking) {root : ForkNode} {key : BlockHash}

section Graph

variable {f f' : F}

theorem Under.grown {parent : ForkNode} (hgrown : Grown paqus ranking f block hash parent f') (hr : Rooted paqus f)
    (hblock : Under paqus root f block.previousHash) (h : Under paqus root f key) : Under paqus root f' key := by
  intro path hpath
  rcases hgrown.cases_branch hr hpath with hold | ⟨_, rest, rfl, hrest⟩
  · exact h path hold
  · exact List.mem_cons_of_mem _ (hblock rest hrest)

theorem Beyond.tip_ne {core : Core F} (hs : core.Sound paqus ranking) (h : Beyond paqus root core) :
    core.ledger.tipHash ≠ some root.hash := by
  obtain ⟨tip, own, rest, hown, hon⟩ := h
  rw [hon.tipHash]
  intro htip
  have hroot := hon.branch.suffix hs.graph.rooted.key_eq
  rw [← Option.some.inj htip] at hroot
  have hsame := hon.branch.unique hroot
  exact hown (List.append_left_eq_self.mp (hsame : own ++ root :: rest = root :: rest))

end Graph

section Step

variable {core next : Core F}

include laws

variable {path : List ForkNode}

theorem OnBranch.pruned (hs : core.Sound paqus ranking) (hpruned : Pruned paqus core next) {tip : BlockHash}
    (h : OnBranch paqus core.genesisAccounts core.forkChoice core.ledger tip path) :
    OnBranch paqus next.genesisAccounts next.forkChoice next.ledger tip path := by
  rcases hpruned.cases_sound laws hs with
    rfl | ⟨tip', path', final, count, hactive, hmem, _, hfinal, hprune, he⟩
  · exact h
  · have htip : tip' = tip := Option.some.inj (hactive.tipHash.symm.trans h.tipHash)
    subst htip
    rw [← h.branch.unique hactive.branch] at hmem
    rw [he]
    exact ⟨h.tipHash, prune_branch laws hs.graph hfinal hprune h.branch hmem, h.replay⟩

theorem Beyond.pruned (hs : core.Sound paqus ranking) (hpruned : Pruned paqus core next) (h : Beyond paqus root core) :
    Beyond paqus root next ∧ paqus.fork.get next.forkChoice root.hash = some root := by
  obtain ⟨tip, own, rest, hown, hon⟩ := h
  have hon' := hon.pruned laws hs hpruned
  have hs' := hs.pruned laws hpruned
  exact ⟨⟨tip, own, rest, hown, hon'⟩, hs'.graph.mem_path hon'.branch (by simp)⟩

/-- What a descendant of the block does. -/
structure Descends (paqus : Paqus F) (root : ForkNode) (core next : Core F) : Prop where
  known : paqus.fork.get next.forkChoice root.hash = some root
  active : next.ledger = core.ledger ∧ (Beyond paqus root core → Beyond paqus root next) ∨ Beyond paqus root next
  under : ∀ {key}, Under paqus root core.forkChoice key → Under paqus root next.forkChoice key

variable {staged : Option Ledger} {forkChoice : F} (hs : core.Sound paqus ranking)

include hs

theorem CoreStep.descends (hknown : paqus.fork.get core.forkChoice root.hash = some root)
    (hblock : Under paqus root core.forkChoice block.previousHash) (h : CoreStep paqus block core next) :
    Descends paqus root core next := by
  cases h.sound laws hs with
  | refused => exact ⟨hknown, .inl ⟨rfl, id⟩, id⟩
  | inserted admitted =>
    obtain ⟨parent, hgrown⟩ := admitted.grown laws hs
    refine ⟨hgrown.get_old _ _ hknown, .inl ⟨rfl, ?_⟩, fun hkey => .grown hgrown hs.graph.rooted hblock hkey⟩
    rintro ⟨tip, own, rest, hown, hon⟩
    exact ⟨tip, own, rest, hown, hon.tipHash, hon.branch.mono hgrown.get_old, hon.replay⟩
  | moved admitted below active sound pruned =>
    obtain ⟨parent, hgrown⟩ := admitted.grown laws hs
    obtain ⟨own, rest, rfl⟩ := List.append_of_mem (hblock _ below)
    obtain ⟨hbeyond, hroot⟩ := Beyond.pruned laws sound pruned ⟨_, _ :: own, rest, by simp, active⟩
    refine ⟨hroot, .inr hbeyond, fun hkey path hpath => ?_⟩
    exact Under.grown hgrown hs.graph.rooted hblock hkey path (hpath.mono fun _ _ => Pruned.sub laws sound pruned)

theorem CoreStep.under_new (hknown : paqus.fork.get core.forkChoice root.hash = some root)
    (hblock : Under paqus root core.forkChoice block.previousHash) (h : CoreStep paqus block core next)
    (hadm : Admits paqus core block staged hash forkChoice) : Under paqus root next.forkChoice hash := by
  obtain ⟨parent, hgrown⟩ := hadm.grown laws hs
  have hs' := hs.step laws h
  intro path hpath
  obtain ⟨node, rest, rfl, hnode⟩ := hpath.head
  rcases h.known laws hs hnode with hold | ⟨rfl, _⟩
  · rw [hgrown.fresh] at hold
    cases hold
  · have hheight : node.height ≠ 0 := by
      have hraised := hgrown.height_eq
      rw [hs'.graph.block_height hnode]
      omega
    have hparent : node.parent? = some node.block.previousHash := by
      rw [ForkNode.parent?, if_neg hheight, hs'.graph.block_parent hnode]
    cases hpath with
    | root _ top => rw [hparent] at top; cases top
    | step _ up hrest =>
      rw [hparent] at up
      cases up
      exact List.mem_cons_of_mem _ ((h.descends laws hs hknown hblock).under hblock rest hrest)

end Step

variable {node next : Node F} {node : Node F} {stack rest : List BlockHash} {orphan : OrphanBlock} {child : BlockHash}

theorem cacheOrphanBlock_found (hhash : paqus.blockHash block = .ok hash)
    (h : cacheOrphanBlock paqus block node = .ok () next) (hfound : next.orphanBlocks[key]? = some orphan) :
    node.orphanBlocks[key]? = some orphan ∨ orphan.block = block := by
  have hpruned : node.pruned.orphanBlocks[key]? = some orphan → node.orphanBlocks[key]? = some orphan :=
    fun hfound => (Node.getElem?_pruned.mp hfound).1
  have hroomier : node.pruned.roomier.orphanBlocks[key]? = some orphan →
      node.pruned.orphanBlocks[key]? = some orphan := by
    unfold Node.roomier
    split
    · split
      · exact fun hfound => (getElem?_taken.mp hfound).2
      · exact id
    · exact id
  obtain ⟨_, _, _, _, hqueue⟩ := queueMissingParentRequest_state paqus block.previousHash node.pruned.roomier
  cases (cacheOrphanBlock_eq hhash node).symm.trans h
  rw [hqueue, state_ok] at hfound
  split at hfound
  · exact .inl (hpruned hfound)
  · simp only [Node.withOrphan, Std.ExtTreeMap.getElem?_insert] at hfound
    split at hfound
    · cases hfound
      exact .inr rfl
    · exact .inl (hpruned (hroomier hfound))

/-- The loop that connects the orphans of a block: the tip is where it was or beyond the block, and only
descendants are still to be offered. -/
structure Cascade (paqus : Paqus F) (ranking : Ranking) (root : ForkNode) (stay : Option BlockHash)
    (stack children : List BlockHash) (node : Node F) : Prop where
  sound : node.toCore.Sound paqus ranking
  indexed : Indexed paqus children node
  known : paqus.fork.get node.forkChoice root.hash = some root
  active : node.ledger.tipHash = stay ∨ Beyond paqus root node.toCore
  stacked : ∀ key ∈ stack, Under paqus root node.forkChoice key
  offers : ∀ child ∈ children, ∀ orphan, node.orphanBlocks[child]? = some orphan →
    Under paqus root node.forkChoice orphan.block.previousHash

theorem Node.pruned_toMain (node : Node F) : node.pruned.toMain = node.toMain := by
  obtain ⟨_, _, hpruned⟩ := node.pruned_eq
  rw [hpruned]
  rfl

theorem Cascade.start (hs : node.toCore.Sound paqus ranking) (hindexed : Indexed paqus [] node)
    (hknown : paqus.fork.get node.forkChoice root.hash = some root) :
    Cascade paqus ranking root node.ledger.tipHash [root.hash] [] node.pruned := by
  have hmain := node.pruned_toMain
  refine ⟨hmain ▸ hs, hindexed.pruned, hmain ▸ hknown, .inl (by rw [hmain]), fun key hkey path hpath => ?_, nofun⟩
  obtain rfl := List.mem_singleton.mp hkey
  obtain ⟨first, rest, rfl, hfirst⟩ := hpath.head
  rw [hmain, hknown] at hfirst
  cases hfirst
  simp

section Loop

variable {stay : Option BlockHash}

theorem getElem?_offered {other : OrphanBlock} :
    (state (applyKnownParentBlock paqus block (node.taken child))).orphanBlocks[key]? = some other ↔
      child ≠ key ∧ node.orphanBlocks[key]? = some other := by
  have hpool : (state (applyKnownParentBlock paqus block (node.taken child))).orphanBlocks =
      (node.taken child).orphanBlocks :=
    congrArg Node.Pool.orphanBlocks (applyKnownParentBlock_pool paqus block (node.taken child))
  rw [hpool, getElem?_taken]

theorem admits_of_applied (h : applyKnownParentBlock paqus block node = .ok () next) :
    ∃ staged hash forkChoice, Admits paqus node.toCore block staged hash forkChoice := by
  rw [applyKnownParentBlock_eq] at h
  by_contra hno
  obtain ⟨error, herror⟩ := @connectBlock_refused F paqus block (node.noted block) hno
  cases herror.symm.trans h

include laws

theorem Cascade.descends (h : Cascade paqus ranking root stay stack (child :: rest) node)
    (hfound : node.orphanBlocks[child]? = some orphan) : Descends paqus root node.toCore
      (state (applyKnownParentBlock paqus orphan.block (node.taken child))).toCore :=
  (applyKnownParentBlock_core paqus orphan.block (node.taken child)).descends laws h.sound h.known
    (h.offers child (by simp) orphan hfound)

theorem Cascade.offered (h : Cascade paqus ranking root stay stack (child :: rest) node)
    (hfound : node.orphanBlocks[child]? = some orphan) :
    Cascade paqus ranking root stay stack rest
      (state (applyKnownParentBlock paqus orphan.block (node.taken child))) := by
  have hstep := applyKnownParentBlock_core paqus orphan.block (node.taken child)
  have hs : (node.taken child).toCore.Sound paqus ranking := h.sound
  have hdescends := h.descends laws hfound
  refine ⟨hs.step laws hstep, h.indexed.taken.applied orphan.block, hdescends.known, ?_,
    fun key hkey => hdescends.under (h.stacked key hkey), fun key hkey other hother => ?_⟩
  · rcases hdescends.active with ⟨hledger, hbeyond⟩ | hbeyond
    · rcases h.active with htip | hactive
      · exact .inl ((congrArg Ledger.tipHash hledger).trans htip)
      · exact .inr (hbeyond hactive)
    · exact .inr hbeyond
  · exact hdescends.under (h.offers key (List.mem_cons_of_mem _ hkey) other (getElem?_offered.mp hother).2)

theorem worklist_cascade (root : ForkNode) (stay : Option BlockHash) :
    Worklist paqus (Cascade paqus ranking root stay) where
  skip h _ := ⟨h.sound, h.indexed, h.known, h.active, fun key hkey => h.stacked key (by simp [hkey]), h.offers⟩
  pop := by
    intro parent stack children node h hindex
    refine ⟨h.sound, h.indexed.popped hindex, h.known, h.active, fun key hkey => h.stacked key (by simp [hkey]),
      fun key hkey other hother => ?_⟩
    have hlisted : key ∈ node.childrenOf parent := by
      rw [Node.childrenOf, hindex]
      exact hkey
    obtain ⟨_, held, hheld, hparent⟩ := h.indexed.cached hlisted
    cases hheld.symm.trans hother
    rw [hparent]
    exact h.stacked parent (by simp)
  gone h hgone := ⟨h.sound, h.indexed.gone hgone, h.known, h.active, h.stacked,
    fun key hkey => h.offers key (List.mem_cons_of_mem _ hkey)⟩
  connected := by
    intro stack child rest node orphan next h hfound hrun
    have hoffered := h.offered laws hfound
    have hstep := applyKnownParentBlock_core paqus orphan.block (node.taken child)
    rw [hrun, state_ok] at hoffered hstep
    refine ⟨hoffered.sound, hoffered.indexed, hoffered.known, hoffered.active, fun key hkey => ?_, hoffered.offers⟩
    rcases List.mem_cons.mp hkey with rfl | hkey
    · obtain ⟨staged, hash, forkChoice, hadm⟩ := admits_of_applied hrun
      obtain ⟨parent, hgrown⟩ := hadm.grown laws h.sound
      cases (h.indexed.keyed key orphan hfound).symm.trans hgrown.hash_eq
      exact hstep.under_new laws h.sound h.known (h.offers key (by simp) orphan hfound) hadm
    · exact hoffered.stacked key hkey
  recached := by
    intro stack child rest node orphan next h hfound hrun
    have hoffered := h.offered laws hfound
    have hdescends := h.descends laws hfound
    rw [hrun, state_error] at hoffered hdescends
    have hhash := h.indexed.keyed child orphan hfound
    obtain ⟨later, hlater, hindexed⟩ := hoffered.indexed.cacheOrphanBlock hhash
      (List.nodup_cons.mp h.indexed.children_once).1
    obtain ⟨_, _, _, _, _, _, hstate⟩ := cacheOrphanBlock_state paqus orphan.block next
    rw [hlater, state_ok] at hstate
    have hcore : later.toCore = next.toCore := by rw [hstate]; rfl
    refine ⟨later, hlater, hcore ▸ hoffered.sound, hindexed, hcore ▸ hoffered.known, hcore ▸ hoffered.active,
      hcore ▸ hoffered.stacked, fun key hkey other hother => ?_⟩
    rw [show later.forkChoice = next.forkChoice from congrArg Core.forkChoice hcore]
    rcases cacheOrphanBlock_found hhash hlater hother with hold | hnew
    · exact hoffered.offers key hkey other hold
    · rw [hnew]
      exact hdescends.under (h.offers child (by simp) orphan hfound)
  dropped := by
    intro stack child rest node orphan error next h hfound hrun _
    have hoffered := h.offered laws hfound
    rw [hrun, state_error] at hoffered
    exact hoffered

end Loop

variable {hash parent : BlockHash} {tip : ForkNode} {core : Core F}

/-- The block passes the consensus checks on its parent and has the state root that it leads to. -/
structure Follows (paqus : Paqus F) (consensus : Consensus) (ledger : Ledger) (parent child : Block) : Prop where
  valid : paqus.rules.validateNextBlockWithTip consensus child parent = .ok ()
  root : validateCanonicalStateRoot paqus ledger child = .ok ()

/-- The active tip is the best tip of the graph, with the given block. -/
structure OnTop (paqus : Paqus F) (ranking : Ranking) (core : Core F) (tip : ForkNode) : Prop where
  sound : core.Sound paqus ranking
  tipHash : core.ledger.tipHash = some tip.hash
  known : paqus.fork.get core.forkChoice tip.hash = some tip
  best : paqus.fork.bestTip core.forkChoice = some tip

section Offer

variable {child : Block}

include laws

omit laws in
theorem OnTop.extends (hchild : child.previousHash = tip.hash) (h : OnTop paqus ranking core tip) :
    extendsActiveTip core.ledger child = true := by
  simp [extendsActiveTip, h.tipHash, hchild]

variable (h : OnTop paqus ranking core tip)

include h

theorem OnTop.validate_eq (hchild : child.previousHash = tip.hash)
    (hheight : child.height ≠ 0) : core.validateBlockForKnownParent paqus child =
      (paqus.rules.validateNextBlockWithTip core.consensus child tip.block).mapError .consensus := by
  obtain ⟨_, _, hactive⟩ := h.sound.active
  have hknown := h.known
  rw [← hchild] at hknown
  simp only [Core.validateBlockForKnownParent, Core.validateCheckpoint,
    hactive.checkpoint laws h.sound.graph, hheight, if_false, hknown]
  rfl

theorem OnTop.admits (hchild : child.previousHash = tip.hash) (hheight : child.height ≠ 0)
    (hhash : paqus.blockHash child = .ok hash) (hfresh : paqus.fork.get core.forkChoice hash = none)
    (hfollows : Follows paqus core.consensus core.ledger tip.block child) (hwork : 0 < ranking.work child) :
    ∃ ledger forkChoice, Admits paqus core child (some ledger) hash forkChoice ∧
      BestAfter paqus hash forkChoice := by
  obtain ⟨ledger, hledger⟩ := stateRoot_of_valid laws hfollows.root
  have hparent : paqus.fork.get core.forkChoice child.previousHash = some tip := by rw [hchild, h.known]
  have hnext := laws.consensus.next_height hfollows.valid
  rw [← h.sound.graph.block_height hparent] at hnext
  obtain ⟨forkChoice, hinsert⟩ := laws.fork.insert_known hhash hfresh hparent hnext
  have hadm : Admits paqus core child (some ledger) hash forkChoice := by
    refine ⟨?_, ?_, hinsert⟩
    · rw [h.validate_eq laws hchild hheight, hfollows.valid]
      rfl
    · simp only [Core.validateBlockStateForKnownParent, h.extends hchild, if_true, hfollows.root, hledger]
      rfl
  refine ⟨ledger, forkChoice, hadm, ?_⟩
  obtain ⟨parent, hgrown⟩ := hadm.grown laws h.sound
  by_contra hnot
  have hbest := hgrown.bestTip laws.fork h.best hnot
  have hheavier : tip.cumulativeWork <
      (ForkNode.of paqus ranking core.forkChoice hash child).cumulativeWork := by
    simp only [ForkNode.of, hparent, Option.elim_some]
    omega
  rcases laws.fork.best_max hbest hgrown.get_new with hsame | hless | ⟨hequal, _⟩
  · rw [hsame] at hheavier
    omega
  · omega
  · omega

theorem OnTop.beyond (hcore : node.toCore = core)
    (hchild : child.previousHash = tip.hash) (hheight : child.height ≠ 0) (hhash : paqus.blockHash child = .ok hash)
    (hfresh : paqus.fork.get core.forkChoice hash = none)
    (hfollows : Follows paqus core.consensus core.ledger tip.block child) (hwork : 0 < ranking.work child) :
    Beyond paqus tip (state (applyKnownParentBlock paqus child node)).toCore := by
  subst hcore
  obtain ⟨ledger, forkChoice, hadm, hbest⟩ := h.admits laws hchild hheight hhash hfresh hfollows hwork
  have hext := h.extends hchild
  have hgenesis := hadm.not_genesis laws h.sound
  have hpruned : Pruned paqus { node.toCore with ledger, forkChoice }
      (state (applyKnownParentBlock paqus child node)).toCore := by
    have hextended := extendActiveTip_yields paqus { node.toCore with forkChoice } child ledger
      { node.noted child with forkChoice } rfl
    simp only [hgenesis, Bool.false_eq_true, if_false] at hextended
    have hsettled : settleInserted paqus child hash (some ledger) { node.noted child with forkChoice } =
        extendActiveTip paqus child (some ledger) { node.noted child with forkChoice } :=
      settleInserted_extends hbest hext
    have hadm' : Admits paqus (node.noted child).toCore child (some ledger) hash forkChoice := hadm
    rw [applyKnownParentBlock_eq, connectBlock_of_admits hadm', hsettled]
    exact hextended
  obtain ⟨path, hold, hactive, hsound⟩ := hadm.extended laws h.sound hext
  obtain ⟨first, rest, rfl, hfirst⟩ := hold.branch.head
  rw [hchild, h.known] at hfirst
  cases hfirst
  exact (Beyond.pruned laws hsound hpruned ⟨hash, [_], rest, by simp, hactive⟩).1

theorem OnTop.refused (hcore : node.toCore = core) (hchild : child.previousHash = tip.hash)
    (hheight : child.height ≠ 0) (hnot : ¬Follows paqus core.consensus core.ledger tip.block child) :
    ∃ error, applyKnownParentBlock paqus child node = .error error (node.noted child) ∧
      error ≠ .forkChoice .missingParent := by
  subst hcore
  have hvalidate : (node.noted child).toCore.validateBlockForKnownParent paqus child =
      (paqus.rules.validateNextBlockWithTip node.consensus child tip.block).mapError .consensus :=
    h.validate_eq laws hchild hheight
  have hext : extendsActiveTip (node.noted child).ledger child = true := h.extends hchild
  rw [applyKnownParentBlock_eq]
  unfold connectBlock
  rw [get_bind, hvalidate]
  cases hvalid : paqus.rules.validateNextBlockWithTip node.consensus child tip.block with
  | error error => exact ⟨_, rfl, nofun⟩
  | ok _ =>
    cases hroot : validateCanonicalStateRoot paqus node.ledger child with
    | ok _ => exact absurd ⟨hvalid, hroot⟩ hnot
    | error error =>
      have hledger : ∀ other, error ≠ .forkChoice other := by
        intro other he
        subst he
        unfold validateCanonicalStateRoot at hroot
        split at hroot
        · cases hroot
        · split at hroot
          · cases hroot
          · split at hroot <;> cases hroot
      refine ⟨error, ?_, hledger _⟩
      simp only [mapError_ok, liftExcept_ok, Core.validateBlockStateForKnownParent, hext, if_true]
      rw [pure_bind, show validateCanonicalStateRoot paqus (node.noted child).ledger child = .error error from hroot]
      rfl

end Offer

/-- The loop has connected nothing so far. -/
structure Poised (paqus : Paqus F) (core : Core F) (pool : BTreeMap BlockHash OrphanBlock) (tip : ForkNode)
    (stack children : List BlockHash) (node : Node F) : Prop where
  core_eq : node.toCore = core
  indexed : Indexed paqus children node
  held : ∀ {key : BlockHash} {orphan : OrphanBlock}, node.orphanBlocks[key]? = some orphan → pool[key]? = some orphan
  turn : stack = [tip.hash] ∧ children = [] ∨
    stack = [] ∧ ∀ child ∈ children, ∀ orphan, node.orphanBlocks[child]? = some orphan →
      orphan.block.previousHash = tip.hash

section Loop

variable {pool : BTreeMap BlockHash OrphanBlock}

theorem Poised.offered (h : Poised paqus core pool tip stack (child :: rest) node)
    (hfound : node.orphanBlocks[child]? = some orphan) :
    orphan.block.previousHash = tip.hash ∧ orphan.block.height ≠ 0 ∧
      paqus.blockHash orphan.block = .ok child := by
  rcases h.turn with ⟨_, hnone⟩ | ⟨_, hparents⟩
  · cases hnone
  · exact ⟨hparents child (by simp) orphan hfound, h.indexed.raised hfound, h.indexed.keyed child orphan hfound⟩

theorem Poised.skipped (h : Poised paqus core pool tip (parent :: stack) [] node) :
    Poised paqus core pool tip stack [] node := by
  rcases h.turn with ⟨hstack, _⟩ | ⟨hstack, _⟩
  · cases hstack
    exact ⟨h.core_eq, h.indexed, h.held, .inr ⟨rfl, nofun⟩⟩
  · cases hstack

theorem Poised.popped {children : List BlockHash} (h : Poised paqus core pool tip (parent :: stack) [] node)
    (hindex : node.orphanChildrenByParent[parent]? = some children) :
    Poised paqus core pool tip stack children
      { node with orphanChildrenByParent := node.orphanChildrenByParent.erase parent } := by
  rcases h.turn with ⟨hstack, _⟩ | ⟨hstack, _⟩
  · cases hstack
    refine ⟨h.core_eq, h.indexed.popped hindex, h.held, .inr ⟨rfl, fun key hkey other hother => ?_⟩⟩
    have hlisted : key ∈ node.childrenOf tip.hash := by
      rw [Node.childrenOf, hindex]
      exact hkey
    obtain ⟨_, held, hheld, hparent⟩ := h.indexed.cached hlisted
    cases hheld.symm.trans hother
    exact hparent
  · cases hstack

theorem Poised.gone (h : Poised paqus core pool tip stack (child :: rest) node)
    (hgone : node.orphanBlocks[child]? = none) : Poised paqus core pool tip stack rest node := by
  rcases h.turn with ⟨_, hnone⟩ | ⟨hstack, hparents⟩
  · cases hnone
  · exact ⟨h.core_eq, h.indexed.gone hgone, h.held,
      .inr ⟨hstack, fun key hkey => hparents key (List.mem_cons_of_mem _ hkey)⟩⟩

include laws

theorem Poised.refused (htop : OnTop paqus ranking core tip) (h : Poised paqus core pool tip stack (child :: rest) node)
    (hfound : node.orphanBlocks[child]? = some orphan)
    (hnot : ¬Follows paqus core.consensus core.ledger tip.block orphan.block) :
    ∃ error next, applyKnownParentBlock paqus orphan.block (node.taken child) = .error error next ∧
      error ≠ .forkChoice .missingParent ∧ Poised paqus core pool tip stack rest next := by
  obtain ⟨hparent, hheight, _⟩ := h.offered hfound
  have hcore : (node.taken child).toCore = core := h.core_eq
  obtain ⟨error, hrun, herror⟩ := htop.refused laws hcore hparent hheight hnot
  have hindexed := h.indexed.taken.applied orphan.block
  have hpool : ∀ {key other}, (state (applyKnownParentBlock paqus orphan.block
      (node.taken child))).orphanBlocks[key]? = some other → node.orphanBlocks[key]? = some other :=
    fun hother => (getElem?_offered.mp hother).2
  rw [hrun, state_error] at hindexed
  simp only [hrun, state_error] at hpool
  refine ⟨error, _, hrun, herror, h.core_eq, hindexed, fun hother => h.held (hpool hother), ?_⟩
  rcases h.turn with ⟨_, hnone⟩ | ⟨hstack, hparents⟩
  · cases hnone
  · exact .inr ⟨hstack, fun key hkey other hother =>
      hparents key (List.mem_cons_of_mem _ hkey) other (hpool hother)⟩

theorem worklist_poised (htop : OnTop paqus ranking core tip)
    (hnone : ∀ (key : BlockHash) (orphan : OrphanBlock), pool[key]? = some orphan →
      orphan.block.previousHash = tip.hash → ¬Follows paqus core.consensus core.ledger tip.block orphan.block) :
    Worklist paqus (Poised paqus core pool tip) where
  skip h _ := h.skipped
  pop h hindex := h.popped hindex
  gone h hgone := h.gone hgone
  connected := by
    intro stack child rest node orphan next h hfound hrun
    obtain ⟨_, _, herror, _⟩ := h.refused laws htop hfound (hnone _ _ (h.held hfound) (h.offered hfound).1)
    cases herror.symm.trans hrun
  recached := by
    intro stack child rest node orphan next h hfound hrun
    obtain ⟨_, _, herror, hother, _⟩ := h.refused laws htop hfound (hnone _ _ (h.held hfound) (h.offered hfound).1)
    cases herror.symm.trans hrun
    exact absurd rfl hother
  dropped := by
    intro stack child rest node orphan error next h hfound hrun _
    obtain ⟨_, _, herror, _, hpoised⟩ := h.refused laws htop hfound (hnone _ _ (h.held hfound) (h.offered hfound).1)
    cases herror.symm.trans hrun
    exact hpoised

omit laws in
/-- An orphan in the pool that follows on the tip and has still to be offered. -/
def Awaited (paqus : Paqus F) (core : Core F) (tip : ForkNode) (stack children : List BlockHash)
    (node : Node F) : Prop :=
  ∃ (key : BlockHash) (orphan : OrphanBlock), node.orphanBlocks[key]? = some orphan ∧
    orphan.block.previousHash = tip.hash ∧
    Follows paqus core.consensus core.ledger tip.block orphan.block ∧
    (stack = [tip.hash] ∧ children = [] ∨ key ∈ children)

/-- The tip is past the block, or an orphan that follows on it has still to be offered. -/
def Pending (paqus : Paqus F) (core : Core F) (pool : BTreeMap BlockHash OrphanBlock) (tip : ForkNode)
    (stack children : List BlockHash) (node : Node F) : Prop :=
  Beyond paqus tip node.toCore ∨
    Poised paqus core pool tip stack children node ∧ Awaited paqus core tip stack children node

variable (htop : OnTop paqus ranking core tip)
  (hfresh : ∀ (key : BlockHash) (orphan : OrphanBlock), pool[key]? = some orphan →
    orphan.block.previousHash = tip.hash → paqus.fork.get core.forkChoice key = none)
  (hwork : ∀ (key : BlockHash) (orphan : OrphanBlock), pool[key]? = some orphan →
    Follows paqus core.consensus core.ledger tip.block orphan.block → 0 < ranking.work orphan.block)

include htop hfresh hwork

theorem Pending.offered (h : Pending paqus core pool tip stack (child :: rest) node)
    (hcascade : Cascade paqus ranking tip (some tip.hash) stack (child :: rest) node)
    (hfound : node.orphanBlocks[child]? = some orphan) :
    Beyond paqus tip (state (applyKnownParentBlock paqus orphan.block (node.taken child))).toCore ∨
      ∃ error next, applyKnownParentBlock paqus orphan.block (node.taken child) = .error error next ∧
        error ≠ .forkChoice .missingParent ∧ Poised paqus core pool tip stack rest next ∧
        Awaited paqus core tip stack rest next := by
  rcases h with hbeyond | ⟨h, hawaited⟩
  · exact .inl ((hcascade.descends laws hfound).active.elim (fun hkept => hkept.2 hbeyond) id)
  obtain ⟨hparent, hheight, hhash⟩ := h.offered hfound
  by_cases hfollows : Follows paqus core.consensus core.ledger tip.block orphan.block
  · exact .inl (htop.beyond laws h.core_eq hparent hheight hhash (hfresh child orphan (h.held hfound) hparent)
      hfollows (hwork child orphan (h.held hfound) hfollows))
  · obtain ⟨error, next, hrun, herror, hpoised⟩ := h.refused laws htop hfound hfollows
    refine .inr ⟨error, next, hrun, herror, hpoised, ?_⟩
    obtain ⟨key, waiting, hwaiting, hwaits, hnext, hplace⟩ := hawaited
    have hne : child ≠ key := by
      rintro rfl
      cases hwaiting.symm.trans hfound
      exact hfollows hnext
    have hkept := (@getElem?_offered _ paqus orphan.block _ _ _ _).mpr ⟨hne, hwaiting⟩
    rw [hrun, state_error] at hkept
    rcases hplace with ⟨_, hnone⟩ | hmem
    · cases hnone
    · exact ⟨key, waiting, hkept, hwaits, hnext, .inr ((List.mem_cons.mp hmem).resolve_left (Ne.symm hne))⟩

theorem worklist_pending : Worklist paqus fun stack children node =>
    Cascade paqus ranking tip (some tip.hash) stack children node ∧
      Pending paqus core pool tip stack children node where
  skip := by
    rintro parent stack node ⟨hcascade, hbeyond | ⟨hpoised, hawaited⟩⟩ hindex
    · exact ⟨(worklist_cascade laws tip _).skip hcascade hindex, .inl hbeyond⟩
    · obtain ⟨key, waiting, hwaiting, hwaits, _, ⟨hstack, _⟩ | hmem⟩ := hawaited
      · cases hstack
        have hlisted := (hpoised.indexed.listed hwaiting).resolve_right List.not_mem_nil
        rw [hwaits, Node.childrenOf, hindex] at hlisted
        cases hlisted
      · cases hmem
  pop := by
    rintro parent stack children node ⟨hcascade, hbeyond | ⟨hpoised, hawaited⟩⟩ hindex
    · exact ⟨(worklist_cascade laws tip _).pop hcascade hindex, .inl hbeyond⟩
    · refine ⟨(worklist_cascade laws tip _).pop hcascade hindex, .inr ⟨hpoised.popped hindex, ?_⟩⟩
      obtain ⟨key, waiting, hwaiting, hwaits, hnext, ⟨hstack, _⟩ | hmem⟩ := hawaited
      · cases hstack
        have hlisted := (hpoised.indexed.listed hwaiting).resolve_right List.not_mem_nil
        rw [hwaits, Node.childrenOf, hindex] at hlisted
        exact ⟨key, waiting, hwaiting, hwaits, hnext, .inr hlisted⟩
      · cases hmem
  gone := by
    rintro stack child rest node ⟨hcascade, hbeyond | ⟨hpoised, hawaited⟩⟩ hgone
    · exact ⟨(worklist_cascade laws tip _).gone hcascade hgone, .inl hbeyond⟩
    · refine ⟨(worklist_cascade laws tip _).gone hcascade hgone, .inr ⟨hpoised.gone hgone, ?_⟩⟩
      obtain ⟨key, waiting, hwaiting, hwaits, hnext, ⟨_, hnone⟩ | hmem⟩ := hawaited
      · cases hnone
      · have hne : key ≠ child := by
          rintro rfl
          rw [hgone] at hwaiting
          cases hwaiting
        exact ⟨key, waiting, hwaiting, hwaits, hnext, .inr ((List.mem_cons.mp hmem).resolve_left hne)⟩
  connected := by
    rintro stack child rest node orphan next ⟨hcascade, hpending⟩ hfound hrun
    have hoffered := hpending.offered laws htop hfresh hwork hcascade hfound
    rw [hrun, state_ok] at hoffered
    refine ⟨(worklist_cascade laws tip _).connected hcascade hfound hrun, .inl ?_⟩
    rcases hoffered with hbeyond | ⟨_, _, herror, _⟩
    · exact hbeyond
    · cases herror
  recached := by
    rintro stack child rest node orphan next ⟨hcascade, hpending⟩ hfound hrun
    have hoffered := hpending.offered laws htop hfresh hwork hcascade hfound
    rw [hrun, state_error] at hoffered
    obtain ⟨later, hlater, hkept⟩ := (worklist_cascade laws tip _).recached hcascade hfound hrun
    refine ⟨later, hlater, hkept, .inl ?_⟩
    rcases hoffered with hbeyond | ⟨_, _, herror, hother, _⟩
    · obtain ⟨_, _, _, _, _, _, hstate⟩ := cacheOrphanBlock_state paqus orphan.block next
      rw [hlater, state_ok] at hstate
      rw [hstate]
      exact hbeyond
    · cases herror
      exact absurd rfl hother
  dropped := by
    rintro stack child rest node orphan error next ⟨hcascade, hpending⟩ hfound hrun herror
    have hoffered := hpending.offered laws htop hfresh hwork hcascade hfound
    rw [hrun, state_error] at hoffered
    refine ⟨(worklist_cascade laws tip _).dropped hcascade hfound hrun herror, ?_⟩
    rcases hoffered with hbeyond | ⟨_, _, hsame, _, hpoised, hawaited⟩
    · exact .inl hbeyond
    · cases hsame
      exact .inr ⟨hpoised, hawaited⟩

end Loop

end PaqusNetwork
