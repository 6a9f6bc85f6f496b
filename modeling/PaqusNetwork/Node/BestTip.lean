import PaqusNetwork.Node.Finality

namespace PaqusNetwork

open Effect

variable {F : Type} {paqus : Paqus F} {ranking : Ranking} {hash : BlockHash} {block : Block} {f : F}
  {core next : Core F} {forkChoice : F} {node : Node F}

/-- The active ledger is on the best tip of the fork graph. -/
def InSync (paqus : Paqus F) (core : Core F) : Prop :=
  core.ledger.tipHash = (paqus.fork.bestTip core.forkChoice).map ForkNode.hash

/-- A switch to another branch does not cross the finality boundary, and the database accepts the proof
context. -/
def SwitchesSafely (paqus : Paqus F) (main : Main F) (block : Block) (hash : BlockHash) (forkChoice : F) : Prop :=
  BestAfter paqus hash forkChoice → extendsActiveTip main.ledger block = false →
    (∀ ancestor ∈ Core.commonAncestor paqus { main.toCore with forkChoice } main.ledger.tipHash hash,
      paqus.fork.reorgCrossesFinalityBoundary main.ledger forkChoice ancestor = false) ∧
    main.storage.faults main.storage.calls = none

def SwitchAllowed (paqus : Paqus F) (main : Main F) (block : Block) : Prop :=
  ∀ staged hash forkChoice, Admits paqus main.toCore block staged hash forkChoice →
    SwitchesSafely paqus main block hash forkChoice

instance SwitchesSafely.decidable (main : Main F) (block : Block) (hash : BlockHash) (forkChoice : F) :
    Decidable (SwitchesSafely paqus main block hash forkChoice) :=
  inferInstanceAs (Decidable (_ → _))

instance SwitchAllowed.decidable (main : Main F) (block : Block) : Decidable (SwitchAllowed paqus main block) :=
  forallAdmits.decidable paqus main.toCore block _

section Best

variable (laws : ForkChoiceLaws paqus ranking)

include laws

theorem bestTip_eq {node : ForkNode} (hn : paqus.fork.get f hash = some node)
    (hmax : ∀ key other, paqus.fork.get f key = some other → other = node ∨
      ranking.Outranks node.cumulativeWork node.hash other.cumulativeWork other.hash) :
    paqus.fork.bestTip f = some node := by
  obtain ⟨best, hbest⟩ := laws.best_exists hn
  rcases laws.best_max hbest hn with rfl | hout
  · exact hbest
  · rcases hmax _ _ (laws.best_known hbest) with rfl | hout'
    · exact hbest
    · exact absurd hout' hout.asymm

theorem Grown.bestTip {f' : F} {parent best : ForkNode}
    (h : Grown paqus ranking f block hash parent f') (hbest : paqus.fork.bestTip f = some best)
    (hnew : ¬BestAfter paqus hash f') : paqus.fork.bestTip f' = some best := by
  obtain ⟨top, htop⟩ := laws.best_exists h.get_new
  rcases h.cases_get (laws.best_known htop) with ⟨he, _⟩ | hold
  · exact absurd (by simp [BestAfter, htop, he]) hnew
  · have hle := laws.best_max hbest hold
    have hge := laws.best_max htop (h.get_old _ _ (laws.best_known hbest))
    rcases hle with rfl | hle
    · exact htop
    · rcases hge with rfl | hge
      · exact htop
      · exact absurd hge hle.asymm

end Best

section Sync

variable (laws : ProtocolLaws paqus ranking)

include laws

theorem InSync.pruned (hs : core.Sound paqus ranking) (h : InSync paqus core)
    (hpruned : Pruned paqus core next) : InSync paqus next := by
  rcases hpruned.cases_sound laws hs with
    rfl | ⟨tip, path, final, count, hactive, hmem, _, hfinal, hprune, he⟩
  · exact h
  · have hsub := prune_sub laws hfinal hprune
    have hkept := prune_branch laws hs.graph hfinal hprune hactive.branch hmem
    obtain ⟨best, hbest, hhash⟩ := Option.map_eq_some_iff.mp (h.symm.trans hactive.tipHash)
    obtain ⟨node, rest, rfl, hnode⟩ := hkept.head
    have hself : node = best := by
      have hknown := laws.fork.best_known hbest
      rw [hhash, hsub _ _ hnode] at hknown
      exact Option.some.inj hknown
    subst hself
    have hbest' := bestTip_eq laws.fork (hhash ▸ hnode) fun key other ho =>
      laws.fork.best_max hbest (hsub key other ho)
    rw [he]
    simp only [InSync, hbest', hactive.tipHash, Option.map_some, hhash]

theorem connectBlock_switched (encoding : EncodingLaws paqus) {staged : Option Ledger}
    (hs : node.toCore.Sound paqus ranking)
    (hallowed : SwitchAllowed paqus node.toMain block)
    (hadm : Admits paqus node.toCore block staged hash forkChoice)
    (hbest : BestAfter paqus hash forkChoice) (hoff : extendsActiveTip node.ledger block = false) :
    InSync paqus (state (connectBlock paqus block node)).toCore := by
  obtain ⟨hcross, hfault⟩ := hallowed staged hash forkChoice hadm hbest hoff
  have hsound : Core.Sound paqus ranking { node.toCore with forkChoice } := hs.inserted laws hadm
  obtain ⟨best, hbest', hhash⟩ := Option.map_eq_some_iff.mp hbest
  subst hhash
  obtain ⟨plan, hplan⟩ := planReorg_ok laws encoding hsound hbest' hcross
  have htip : plan.bestTip = best.hash := by
    have h := Core.planReorg_bestTip hplan
    rw [show paqus.fork.bestTip forkChoice = some best from hbest'] at h
    exact (Option.some.inj h).symm
  obtain ⟨path, hpath⟩ := hsound.graph.rooted.exists_path (laws.fork.best_known hbest')
  obtain ⟨ledger, hreplay⟩ := hsound.graph.replays hpath
  have hledger : Core.ledgerForBranchTip paqus { node.toCore with forkChoice } best.hash = .ok ledger :=
    (ledgerForBranchTip_eq_ok laws.fork hpath).mpr hreplay
  obtain ⟨saved, hsaved⟩ := saveRollbackProofContext_ok hplan hfault
  let grown : Node F := { node with forkChoice }
  have hreorg : connectBlock paqus block node = reorgToBestTip paqus grown := by
    rw [connectBlock_of_admits hadm]
    exact settleInserted_reorgs hbest hoff
  rw [hreorg, show reorgToBestTip paqus grown = _ from
    reorgToBestTip_of_ledger paqus hplan hsaved (by rw [htip]; exact hledger)]
  have hon := rebuilt_onBranch laws { node.toCore with forkChoice } hsound.graph hpath hledger
  have hsound' : Core.Sound paqus ranking { node.toCore with forkChoice, ledger } := ⟨hsound.graph, _, _, hon⟩
  have hsynced : InSync paqus { node.toCore with forkChoice, ledger } := by
    simp only [InSync, hon.tipHash, show paqus.fork.bestTip forkChoice = some best from hbest', Option.map_some]
  exact hsynced.pruned laws hsound' (recordSwitch_yields paqus _ _ _ _ _ rfl)

theorem InSync.extended {ledger : Ledger} (hs : core.Sound paqus ranking)
    (hadm : Admits paqus core block (some ledger) hash forkChoice)
    (hbest : BestAfter paqus hash forkChoice) (hext : extendsActiveTip core.ledger block = true)
    (hpruned : Pruned paqus { core with
      forkChoice, ledger
      genesisAccounts := if block.isGenesis then ledger.accounts else core.genesisAccounts } next) :
    InSync paqus next := by
  obtain ⟨path, _, hactive, hsound⟩ := hadm.extended laws hs hext
  have hgenesis := hadm.not_genesis laws hs
  simp only [hgenesis, Bool.false_eq_true, if_false] at hpruned
  have hsynced : InSync paqus { core with forkChoice, ledger } := hactive.tipHash.trans hbest.symm
  exact hsynced.pruned laws hsound hpruned

theorem connectBlock_inSync (encoding : EncodingLaws paqus) (hs : node.toCore.Sound paqus ranking)
    (hsync : InSync paqus node.toCore) (hallowed : SwitchAllowed paqus node.toMain block) :
    InSync paqus (state (connectBlock paqus block node)).toCore := by
  have hstep := connectBlock_core paqus block node
  generalize hnext : (state (connectBlock paqus block node)).toCore = next at hstep ⊢
  cases hstep with
  | refused => exact hsync
  | inserted admitted idle =>
    rename_i staged hash forkChoice
    by_cases hbest : BestAfter paqus hash forkChoice
    · have hoff := idle.resolve_left (not_not.mpr hbest)
      rw [← hnext]
      exact connectBlock_switched laws encoding hs hallowed admitted hbest hoff
    · obtain ⟨parent, hgrown⟩ := admitted.grown laws hs
      obtain ⟨tip, path, hactive⟩ := hs.active
      obtain ⟨best, hold, _⟩ := Option.map_eq_some_iff.mp (hsync.symm.trans hactive.tipHash)
      have hnew := hgrown.bestTip laws.fork hold hbest
      exact hsync.trans (by rw [hold, hnew])
  | extended admitted best onTip pruned => exact InSync.extended laws hs admitted best onTip pruned
  | switched admitted best offTip planned rebuilt pruned =>
    rw [← hnext]
    exact connectBlock_switched laws encoding hs hallowed admitted best offTip

/-- In every run in which each branch switch is allowed, the active ledger is on the best tip after
every call. -/
theorem tipHash_eq_bestTip (encoding : EncodingLaws paqus) {node : Node F} (h : Reachable paqus node)
    (hallowed : ∀ connection ∈ node.connections, SwitchAllowed paqus connection.1 connection.2) :
    node.ledger.tipHash = (paqus.fork.bestTip node.forkChoice).map ForkNode.hash := by
  obtain ⟨faults, consensus, clock, config, start, hstart, hrun⟩ := h
  obtain ⟨genesis, hfresh⟩ := initFresh_fresh laws hstart
  have hconnect : ∀ (block : Block) (node : Node F),
      node.toCore.Sound paqus ranking ∧ InSync paqus node.toCore → SwitchAllowed paqus node.toMain block →
        (state (applyKnownParentBlock paqus block node)).toCore.Sound paqus ranking ∧
          InSync paqus (state (applyKnownParentBlock paqus block node)).toCore := by
    rintro block node ⟨hs, hsync⟩ hallow
    refine ⟨hs.step laws (applyKnownParentBlock_core paqus block node), ?_⟩
    rw [applyKnownParentBlock_eq]
    have hnoted : (node.noted block).toMain = node.toMain := rfl
    exact connectBlock_inSync laws encoding (hnoted ▸ hs) (hnoted ▸ hsync) (hnoted ▸ hallow)
  refine (hrun.keeps_along (I := fun core => core.Sound paqus ranking ∧ InSync paqus core) hconnect
    ⟨hfresh.sound laws, ?_⟩ fun connection hc => hallowed connection (List.mem_of_mem_drop hc)).2
  have hself := hfresh.known.mpr ⟨rfl, rfl⟩
  have hbest := bestTip_eq laws.fork hself fun key other ho => .inl (hfresh.known.mp ho).2
  show start.ledger.tipHash = (paqus.fork.bestTip start.forkChoice).map ForkNode.hash
  rw [hbest, Ledger.tipHash, hfresh.chain_eq, hfresh.genesis_eq]
  rfl

end Sync

namespace Reference

theorem tipHash_eq_bestTip_reorg :
    ∃ node, sampleRun 2 reorgBlocks = .ok node ∧ node.reorgsTotal = 1 ∧
      node.ledger.tipHash = ((protocol 2).fork.bestTip node.forkChoice).map ForkNode.hash := by
  obtain ⟨node, hnode⟩ : ∃ node, sampleRun 2 reorgBlocks = .ok node := exists_ok (by decide +kernel)
  exact ⟨node, hnode, of_ok hnode (by decide +kernel), tipHash_eq_bestTip (protocol_laws 2) (encoding_laws 2)
    (sampleRun_reachable hnode) (of_ok hnode (by decide +kernel))⟩

/-- With finality depth two the heavier rival enters the graph as its best tip and the ledger stays on the
third block. -/
def finalityBlocks : List NodeCall :=
  let first := Tip.genesis.next 111 1 []
  let second := first.next 112 1 []
  let third := second.next 113 1 []
  let rival := Tip.genesis.next 121 100 []
  [.applyBlock first.block, .applyBlock second.block, .applyBlock third.block, .applyBlock rival.block]

theorem tipHash_ne_bestTip_finality :
    ∃ node, sampleRun 2 finalityBlocks = .ok node ∧ Reachable (protocol 2) node ∧ node.ledger.tipHash = some 113 ∧
      ((protocol 2).fork.bestTip node.forkChoice).map ForkNode.hash = some 121 := by
  obtain ⟨node, hnode⟩ : ∃ node, sampleRun 2 finalityBlocks = .ok node := exists_ok (by decide +kernel)
  exact ⟨node, hnode, sampleRun_reachable hnode, of_ok hnode (by decide +kernel)⟩

end Reference

end PaqusNetwork
