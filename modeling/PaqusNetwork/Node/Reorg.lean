import PaqusNetwork.Node.Sound

namespace PaqusNetwork

open Effect

variable {F : Type} {paqus : Paqus F} {ranking : Ranking} {ledger : Ledger} {key : BlockHash}
  {path : List ForkNode} {accounts : BTreeMap Address Account} {plan : ReorgPlan} {node : ForkNode}

section Prune

variable (laws : ProtocolLaws paqus ranking) {f f' : F} {hash : BlockHash} {final : ForkNode} {count : Nat}

include laws

theorem prune_sub (hfinal : paqus.fork.get f hash = some final)
    (hprune : paqus.fork.pruneFinalized f hash = .ok (count, f')) (key : BlockHash) (node : ForkNode)
    (h : paqus.fork.get f' key = some node) : paqus.fork.get f key = some node :=
  ((laws.fork.prune_get hprune hfinal key node).mp h).1

variable (hg : GraphSound paqus ranking accounts f) (hfinal : paqus.fork.get f hash = some final)
  (hprune : paqus.fork.pruneFinalized f hash = .ok (count, f'))

include hg hfinal hprune

theorem prune_parent {up : BlockHash} (h : paqus.fork.get f' key = some node) (hup : node.parent? = some up) :
    ∃ m, paqus.fork.get f' up = some m := by
  obtain ⟨hn, hrelated⟩ := (laws.fork.prune_get hprune hfinal key node).mp h
  obtain ⟨m, hm, _⟩ := hg.rooted.parent_known hn hup
  refine ⟨m, (laws.fork.prune_get hprune hfinal up m).mpr ⟨hm, ?_⟩⟩
  obtain ⟨above, habove⟩ := hg.rooted.exists_path hm
  obtain ⟨m', rest, rfl, hm'⟩ := habove.head
  rw [hm] at hm'
  cases hm'
  have hown : Branch paqus f key (node :: m :: rest) := .step hn hup habove
  rcases hrelated with ⟨path, hpath, hmem⟩ | ⟨path, hpath, hmem⟩
  · -- an ancestor of the final block: so is its parent
    left
    refine ⟨path, hpath, ?_⟩
    obtain ⟨before, after, rfl⟩ := List.append_of_mem hmem
    have hsuffix := hpath.suffix hg.rooted.key_eq
    rw [hg.rooted.key_eq hn] at hsuffix
    have he := hsuffix.unique hown
    simp [he]
  · rw [hpath.unique hown] at hmem
    rcases List.mem_cons.mp hmem with rfl | hmem
    · -- the final block itself: its parent is an ancestor of it
      left
      have hkey : hash = key := (hg.rooted.key_eq hfinal).symm.trans (hg.rooted.key_eq hn)
      subst hkey
      exact ⟨_, hown, by simp⟩
    · exact .inr ⟨_, habove, hmem⟩

theorem GraphSound.prune : GraphSound paqus ranking accounts f' := by
  have hsub := prune_sub laws hfinal hprune
  have hrooted : Rooted paqus f' :=
    hg.rooted.restrict hsub fun key node up hn hup => prune_parent laws hg hfinal hprune hn hup
  refine ⟨hrooted, fun hn => hg.block_hash (hsub _ _ hn), fun hn => hg.block_height (hsub _ _ hn),
    fun hn => hg.block_parent (hsub _ _ hn),
    fun hn hz hp => hg.weighed (hsub _ _ hn) hz (hsub _ _ hp), ?_,
    fun hn hz => hg.genesis_only (hsub _ _ hn) hz, fun hp => hg.replays (hp.mono hsub)⟩
  obtain ⟨path, hpath⟩ := hg.rooted.exists_path hfinal
  obtain ⟨own, root, rfl, hroot⟩ := branch_eq_append_root laws.fork hpath
  have htop := hg.rooted.path_length (hpath.suffix hg.rooted.key_eq)
  have hgenesis := hg.genesis_only hroot htop.symm
  rw [hgenesis] at hroot
  exact ⟨root, (laws.fork.prune_get hprune hfinal _ root).mpr ⟨hroot, .inl ⟨_, hpath, by simp⟩⟩⟩

theorem prune_branch (hp : Branch paqus f key path) (hmem : final ∈ path) : Branch paqus f' key path := by
  obtain ⟨node, rest, rfl, hn⟩ := hp.head
  have hkept : paqus.fork.get f' key = some node :=
    (laws.fork.prune_get hprune hfinal key node).mpr ⟨hn, .inr ⟨_, hp, hmem⟩⟩
  exact (hg.prune laws hfinal hprune).rooted.path_restrict (prune_sub laws hfinal hprune) hkept hp

end Prune

section Pruned

variable (laws : ProtocolLaws paqus ranking) {core next : Core F}

include laws

theorem Pruned.cases_sound (hs : core.Sound paqus ranking) (h : Pruned paqus core next) :
    next = core ∨ ∃ tip path final count,
      OnBranch paqus core.genesisAccounts core.forkChoice core.ledger tip path ∧ final ∈ path ∧
      core.ledger.tipHeight.map (· - paqus.rules.finalityDepth) = some final.height ∧
      paqus.fork.get core.forkChoice final.hash = some final ∧
      paqus.fork.pruneFinalized core.forkChoice final.hash = .ok (count, next.forkChoice) ∧
      next = { core with forkChoice := next.forkChoice } := by
  cases h with
  | kept => exact .inl rfl
  | pruned tip final_eq hash_eq pruned =>
    obtain ⟨tipHash, path, hactive⟩ := hs.active
    obtain ⟨node, hmem, hheight, hblock⟩ := (hactive.block_iff laws hs.graph).mp final_eq
    have hnode := hs.graph.mem_path hactive.branch hmem
    have hhash := hs.graph.block_hash hnode
    rw [hblock, hash_eq] at hhash
    cases hhash
    exact .inr ⟨tipHash, path, node, _, hactive, hmem, by simp [tip, hheight], hnode, pruned, rfl⟩

theorem Core.Sound.pruned (hs : core.Sound paqus ranking) (h : Pruned paqus core next) :
    next.Sound paqus ranking := by
  rcases h.cases_sound laws hs with rfl | ⟨tip, path, final, count, hactive, hmem, _, hfinal, hprune, he⟩
  · exact hs
  · rw [he]
    exact ⟨hs.graph.prune laws hfinal hprune, tip, path, hactive.tipHash,
      prune_branch laws hs.graph hfinal hprune hactive.branch hmem, hactive.replay⟩

end Pruned

theorem Core.planReorg_bestTip {core : Core F} (h : core.planReorg paqus = .ok plan) :
    (paqus.fork.bestTip core.forkChoice).map ForkNode.hash = some plan.bestTip := by
  unfold Core.planReorg at h
  cases hbest : paqus.fork.bestTip core.forkChoice with
  | none => rw [hbest] at h; cases h
  | some best =>
    rw [hbest] at h
    simp only at h
    split at h
    · simp only [except_bind_eq_ok] at h
      obtain ⟨_, _, h⟩ := h
      split at h
      · split at h
        · simp only [except_bind_eq_ok] at h
          obtain ⟨_, _, _, _, _, _, h⟩ := h
          cases h
          rfl
        · cases h
      · cases h
    · cases h

section Step

variable (laws : ProtocolLaws paqus ranking) {core next : Core F} {block : Block}
  {staged : Option Ledger} {hash : BlockHash} {forkChoice : F} (hs : core.Sound paqus ranking)

include laws hs

theorem Core.Sound.inserted (h : Admits paqus core block staged hash forkChoice) :
    Core.Sound paqus ranking { core with forkChoice } := by
  obtain ⟨parent, hgrown⟩ := h.grown laws hs
  obtain ⟨tip, path, hactive⟩ := hs.active
  have hg := h.graphSound laws hs
  exact ⟨hg, tip, path, hactive.tipHash, hactive.branch.mono hgrown.get_old, hactive.replay⟩

omit laws hs in
theorem Admits.executed (h : Admits paqus core block (some ledger) hash forkChoice)
    (hext : extendsActiveTip core.ledger block = true) :
    paqus.ledger.executeBlock core.ledger block = .ok ledger := by
  have hstaged := h.staged
  simp only [Core.validateBlockStateForKnownParent, hext, if_true, except_bind_eq_ok, mapError_eq_ok] at hstaged
  obtain ⟨_, _, next, hexec, hnext⟩ := hstaged
  obtain rfl : next = ledger := by simpa [pure, Except.pure] using hnext
  exact hexec

theorem Admits.extended (h : Admits paqus core block (some ledger) hash forkChoice)
    (hext : extendsActiveTip core.ledger block = true) :
    ∃ path, OnBranch paqus core.genesisAccounts core.forkChoice core.ledger block.previousHash path ∧
      OnBranch paqus core.genesisAccounts forkChoice ledger hash
        (ForkNode.of paqus ranking core.forkChoice hash block :: path) ∧
      Core.Sound paqus ranking { core with forkChoice, ledger } := by
  obtain ⟨parent, hgrown⟩ := h.grown laws hs
  obtain ⟨tip, path, hactive⟩ := hs.active
  have htip : block.previousHash = tip := by
    simpa [extendsActiveTip, hactive.tipHash] using hext
  subst htip
  have hexec := h.executed hext
  obtain ⟨rebuilt, hreplay, hsame⟩ := hactive.replay
  obtain ⟨next', hexec', hsame'⟩ := laws.ledger.execute_same hsame.symm hexec
  obtain ⟨hash', hhash', hchain⟩ := laws.ledger.execute_chain hexec
  rw [hgrown.hash_eq] at hhash'
  cases hhash'
  have hnew : OnBranch paqus core.genesisAccounts forkChoice ledger hash
      (ForkNode.of paqus ranking core.forkChoice hash block :: path) := by
    refine ⟨?_, hgrown.branch hactive.branch, next', ?_, hsame'.symm⟩
    · simp [Ledger.tipHash, hchain, Chain.push]
    · exact .block hreplay (by rw [laws.ledger.apply_eq]; exact hexec')
  have hgraph := h.graphSound laws hs
  exact ⟨path, hactive, hnew, hgraph, _, _, hnew⟩

omit hs in
theorem rebuilt_onBranch (core : Core F)
    (hg : GraphSound paqus ranking core.genesisAccounts core.forkChoice) {tip : BlockHash}
    (hp : Branch paqus core.forkChoice tip path)
    (h : core.ledgerForBranchTip paqus tip = .ok ledger) :
    OnBranch paqus core.genesisAccounts core.forkChoice ledger tip path := by
  have hreplay := (ledgerForBranchTip_eq_ok laws.fork hp).mp h
  refine ⟨?_, hp, ledger, hreplay, .refl ledger⟩
  have hchain := hreplay.chain laws.ledger (hg.path_hash hp)
  obtain ⟨node, rest, rfl, hn⟩ := hp.head
  simp only [Ledger.tipHash, hchain, chainOf, Chain.push]
  exact congrArg some (hg.rooted.key_eq hn)

theorem Admits.rebuilt_onBranch (h : Admits paqus core block staged hash forkChoice)
    (hbest : BestAfter paqus hash forkChoice) (hplan : Core.planReorg paqus { core with forkChoice } = .ok plan)
    (hledger : Core.ledgerForBranchTip paqus { core with forkChoice } plan.bestTip = .ok ledger) :
    ∃ path, Branch paqus core.forkChoice block.previousHash path ∧
      OnBranch paqus core.genesisAccounts forkChoice ledger hash
        (ForkNode.of paqus ranking core.forkChoice hash block :: path) := by
  have hg := h.graphSound laws hs
  obtain ⟨parent, hgrown⟩ := h.grown laws hs
  cases (Core.planReorg_bestTip hplan).symm.trans hbest
  obtain ⟨path, hpath⟩ := hs.graph.rooted.exists_path hgrown.parent_known
  exact ⟨path, hpath, PaqusNetwork.rebuilt_onBranch laws { core with forkChoice } hg (hgrown.branch hpath) hledger⟩

omit laws hs in
/-- A step from a sound state: the tip stays, or it moves to the block. -/
inductive SoundStep (paqus : Paqus F) (ranking : Ranking) (block : Block) (core : Core F) : Core F → Prop
  | refused : SoundStep paqus ranking block core core
  | inserted {staged : Option Ledger} {hash : BlockHash} {forkChoice : F}
      (admitted : Admits paqus core block staged hash forkChoice) :
      SoundStep paqus ranking block core { core with forkChoice }
  | moved {staged : Option Ledger} {hash : BlockHash} {forkChoice : F} {ledger : Ledger} {path : List ForkNode}
      {next : Core F} (admitted : Admits paqus core block staged hash forkChoice)
      (below : Branch paqus core.forkChoice block.previousHash path)
      (active : OnBranch paqus core.genesisAccounts forkChoice ledger hash
        (ForkNode.of paqus ranking core.forkChoice hash block :: path))
      (sound : Core.Sound paqus ranking { core with forkChoice, ledger })
      (pruned : Pruned paqus { core with forkChoice, ledger } next) : SoundStep paqus ranking block core next

theorem CoreStep.sound (h : CoreStep paqus block core next) : SoundStep paqus ranking block core next := by
  cases h with
  | refused => exact .refused
  | inserted admitted idle => exact .inserted admitted
  | extended admitted best onTip pruned =>
    obtain ⟨path, hold, hactive, hsound⟩ := admitted.extended laws hs onTip
    simp only [admitted.not_genesis laws hs, Bool.false_eq_true, if_false] at pruned
    exact .moved admitted hold.branch hactive hsound pruned
  | switched admitted best offTip planned rebuilt pruned =>
    obtain ⟨path, hpath, hactive⟩ := admitted.rebuilt_onBranch laws hs best planned rebuilt
    have hg := admitted.graphSound laws hs
    exact .moved admitted hpath hactive ⟨hg, _, _, hactive⟩ pruned

theorem Core.Sound.step (h : CoreStep paqus block core next) :
    next.Sound paqus ranking := by
  cases h.sound laws hs with
  | refused => exact hs
  | inserted admitted => exact hs.inserted laws admitted
  | moved _ _ _ sound pruned => exact sound.pruned laws pruned

theorem CoreStep.genesisAccounts_eq (h : CoreStep paqus block core next) :
    next.genesisAccounts = core.genesisAccounts := by
  cases h.sound laws hs with
  | refused => rfl
  | inserted admitted => rfl
  | moved _ _ _ _ pruned => exact pruned.same.2.1

end Step

variable {core : Core F} {tip : BlockHash}

section Common

variable {f : F}

theorem GraphSound.genesis_mem (laws : ForkChoiceLaws paqus ranking)
    (hg : GraphSound paqus ranking accounts f) {hash : BlockHash} (h : Branch paqus f hash path)
    {genesis : ForkNode}
    (hgen : paqus.fork.get f paqus.rules.genesisHash = some genesis) : genesis ∈ path := by
  obtain ⟨own, root, rfl, hroot⟩ := branch_eq_append_root laws h
  have hlen := hg.rooted.path_length (h.suffix hg.rooted.key_eq)
  have hkey := hg.genesis_only hroot hlen.symm
  rw [hkey, hgen] at hroot
  cases hroot
  simp

theorem GraphSound.common (laws : ForkChoiceLaws paqus ranking) (hg : GraphSound paqus ranking accounts f)
    {other : BlockHash} {p q : List ForkNode} (hp : Branch paqus f tip p) (hq : Branch paqus f other q) :
    ∃ node, node ∈ p ∧ node ∈ q := by
  obtain ⟨genesis, hgen⟩ := hg.genesis_known
  exact ⟨genesis, hg.genesis_mem laws hp hgen, hg.genesis_mem laws hq hgen⟩

theorem find?_first {hashes : List BlockHash} {own shared : List ForkNode} (hown : ∀ m ∈ own, m.hash ∉ hashes)
    (hnode : node.hash ∈ hashes) :
    ((own ++ node :: shared).map ForkNode.hash).find? (hashes.contains ·) = some node.hash := by
  induction own with
  | nil => simp [hnode]
  | cons first rest ih =>
    have hfirst := hown first (by simp)
    rw [List.cons_append, List.map_cons, List.find?_cons_of_neg (by simpa using hfirst)]
    exact ih fun m hm => hown m (by simp [hm])

end Common

section Ancestors

variable (laws : ForkChoiceLaws paqus ranking) {other : BlockHash} {p q : List ForkNode}
  (hp : Branch paqus core.forkChoice tip p) (hq : Branch paqus core.forkChoice other q)

include laws hp

theorem headersToTip_eq : core.headersToTip paqus tip = .ok (p.reverse.map (·.block.header)) := by
  have hfound : ∀ node ∈ p, paqus.fork.get core.forkChoice node.hash = some node := fun node hn =>
    hp.mem_lookup laws.get_hash hn
  rw [Core.headersToTip, laws.ancestors hp, ← List.map_reverse, mapM_eq_filterMap]
  · rw [List.filterMap_map, ← List.filterMap_eq_map]
    refine congrArg Except.ok (List.filterMap_congr fun node hn => ?_)
    simp [hfound node (List.mem_reverse.mp hn), Except.toOption]
  · simp only [List.mem_map, List.mem_reverse]
    rintro _ ⟨node, hn, rfl⟩
    exact ⟨node.block.header, by rw [hfound node hn]⟩

include hq

theorem mem_of_hash_mem (hn : node ∈ q) (hmem : node.hash ∈ p.map ForkNode.hash) : node ∈ p := by
  obtain ⟨found, hfound, hhash⟩ := List.mem_map.mp hmem
  have hsame := hp.mem_lookup laws.get_hash hfound
  rw [hhash, hq.mem_lookup laws.get_hash hn] at hsame
  exact Option.some.inj hsame ▸ hfound

theorem commonAncestor_split (hn : node ∈ p) (hn' : node ∈ q) :
    ∃ own own' node shared, p = own ++ node :: shared ∧ q = own' ++ node :: shared ∧
      (∀ m ∈ own', m ∉ p) ∧ core.commonAncestor paqus (some tip) other = some node.hash := by
  obtain ⟨own, own', node, shared, rfl, rfl, hown⟩ := hp.split_at_common laws.get_hash hq hn hn'
  refine ⟨own, own', node, shared, rfl, rfl, hown, ?_⟩
  simp only [Core.commonAncestor, laws.ancestors hp, laws.ancestors hq, Option.bind_eq_bind, Option.bind_some]
  refine find?_first (fun m hm hmem => hown m hm ?_) (by simp)
  exact mem_of_hash_mem laws hp hq (List.mem_append_left _ hm) hmem

end Ancestors

section Plan

variable (laws : ProtocolLaws paqus ranking)

include laws

theorem planReorg_ok (encoding : EncodingLaws paqus) (hs : core.Sound paqus ranking)
    {best : ForkNode} (hbest : paqus.fork.bestTip core.forkChoice = some best)
    (hcross : ∀ ancestor, core.commonAncestor paqus core.ledger.tipHash best.hash = some ancestor →
      paqus.fork.reorgCrossesFinalityBoundary core.ledger core.forkChoice ancestor = false) :
    ∃ plan, core.planReorg paqus = .ok plan := by
  obtain ⟨tip, path, hactive⟩ := hs.active
  obtain ⟨path', hpath'⟩ := hs.graph.rooted.exists_path (laws.fork.best_known hbest)
  obtain ⟨_, hmem, hmem'⟩ := hs.graph.common laws.fork hactive.branch hpath'
  obtain ⟨own, own', node, shared, hp, hq, _, hcommon⟩ :=
    commonAncestor_split laws.fork hactive.branch hpath' hmem hmem'
  have hbranch := laws.fork.branch_from (hq ▸ hpath')
  have hlosing := headersToTip_eq laws.fork hactive.branch
  have hcanonical := headersToTip_eq laws.fork hpath'
  obtain ⟨id, hid⟩ := encoding.context_id (path.reverse.map (·.block.header)) (path'.reverse.map (·.block.header))
    node.hash
  have hno := hcross node.hash (by rw [hactive.tipHash]; exact hcommon)
  simp only [Core.planReorg, hbest, hcommon, hno, hbranch, hactive.tipHash, hlosing, hcanonical,
    RollbackProofContext.new, hid, check, bind, Except.bind, mapError_ok, pure, Except.pure,
    Bool.not_false, if_true]
  exact ⟨_, rfl⟩

theorem planReorg_split (hs : core.Sound paqus ranking) (h : core.planReorg paqus = .ok plan)
    {path' : List ForkNode} (hactive : OnBranch paqus core.genesisAccounts core.forkChoice core.ledger tip path)
    (hpath' : Branch paqus core.forkChoice plan.bestTip path') :
    ∃ own own' node shared, path = own ++ node :: shared ∧ path' = own' ++ node :: shared ∧
      core.commonAncestor paqus core.ledger.tipHash plan.bestTip = some node.hash ∧
      paqus.fork.reorgCrossesFinalityBoundary core.ledger core.forkChoice node.hash = false := by
  have hbest := Core.planReorg_bestTip h
  obtain ⟨best, hbest, hhash⟩ := Option.map_eq_some_iff.mp hbest
  obtain ⟨_, hmem, hmem'⟩ := hs.graph.common laws.fork hactive.branch hpath'
  obtain ⟨own, own', node, shared, hp, hq, _, hcommon⟩ :=
    commonAncestor_split laws.fork hactive.branch hpath' hmem hmem'
  rw [← hactive.tipHash] at hcommon
  refine ⟨own, own', node, shared, hp, hq, hcommon, ?_⟩
  rw [← hhash] at hcommon
  simp only [Core.planReorg, hbest, hcommon, except_bind_eq_ok] at h
  obtain ⟨_, hcheck, _⟩ := h
  simpa using hcheck

end Plan

theorem saveRollbackProofContext_ok (h : core.planReorg paqus = .ok plan) {storage : Storage}
    (hfault : storage.faults storage.calls = none) :
    ∃ saved, Storage.saveRollbackProofContext paqus plan.proofContext storage = .ok () saved := by
  have hnew : RollbackProofContext.new paqus plan.proofContext.losingHeaders
      plan.proofContext.canonicalHeaders plan.proofContext.commonAncestor = .ok plan.proofContext := by
    unfold Core.planReorg at h
    split at h
    · split at h
      · simp only [except_bind_eq_ok] at h
        obtain ⟨_, _, h⟩ := h
        split at h
        · split at h
          · simp only [except_bind_eq_ok, mapError_eq_ok] at h
            obtain ⟨losing, _, canonical, _, context, hcontext, hplan⟩ := h
            cases hplan
            simp only [RollbackProofContext.new, except_bind_eq_ok] at hcontext
            obtain ⟨id, hid, hmade⟩ := hcontext
            cases hmade
            simp only [RollbackProofContext.new, hid]
            rfl
          · cases h
        · cases h
      · cases h
    · cases h
  have hcall : Storage.databaseCall storage = .ok () { storage with calls := storage.calls + 1 } := by
    unfold Storage.databaseCall
    rw [get_bind, modify_bind, hfault]
    rfl
  unfold Storage.saveRollbackProofContext
  rw [hnew, liftExcept_ok, pure_bind, beq_self_eq_true, ensure_true, pure_bind, bind_ok hcall, modify_apply]
  exact ⟨_, rfl⟩

end PaqusNetwork
