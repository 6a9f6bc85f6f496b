import PaqusNetwork.Reference.Sample

namespace PaqusNetwork

open Effect

variable {F : Type} {paqus : Paqus F} {ranking : Ranking}

theorem reachable_sound (laws : ProtocolLaws paqus ranking) {node : Node F}
    (h : Reachable paqus node) : node.toCore.Sound paqus ranking := by
  obtain ⟨faults, consensus, clock, config, start, hstart, hrun⟩ := h
  obtain ⟨genesis, hfresh⟩ := initFresh_fresh laws hstart
  have hsound : Core.Sound paqus ranking start.toCore := hfresh.sound laws
  exact hrun.keeps_core (fun hs hstep => hs.step laws hstep) hsound

/-- `ledger_for_branch_tip` of the active tip rebuilds the active ledger but for its events. -/
theorem ledgerForBranchTip_activeTip (laws : ProtocolLaws paqus ranking) {node : Node F} (h : Reachable paqus node) :
    ∃ tip rebuilt, node.ledger.tipHash = some tip ∧ node.toCore.ledgerForBranchTip paqus tip = .ok rebuilt ∧
      rebuilt.accounts = node.ledger.accounts ∧
      rebuilt.qcashUtxos = node.ledger.qcashUtxos ∧
      rebuilt.chain.headers = node.ledger.chain.headers ∧
      rebuilt.chain.blocks = node.ledger.chain.blocks ∧
      rebuilt.tipHeight = node.ledger.tipHeight ∧ rebuilt.tipHash = node.ledger.tipHash := by
  obtain ⟨tip, path, hactive⟩ := (reachable_sound laws h).active
  obtain ⟨rebuilt, hreplay, hsame⟩ := hactive.replay
  refine ⟨tip, rebuilt, hactive.tipHash, (ledgerForBranchTip_eq_ok laws.fork hactive.branch).mpr hreplay,
    hsame.accounts, hsame.qcashUtxos, ?_, ?_, ?_, ?_⟩
  · rw [hsame.chain]
  · rw [hsame.chain]
  · rw [Ledger.tipHeight, hsame.chain]; rfl
  · rw [Ledger.tipHash, hsame.chain]; rfl

namespace Reference

def reorgBlocks : List NodeCall :=
  let first := Tip.genesis.next 111 1 [transfer 501 1 0 2 30]
  let second := first.next 112 1 [transfer 502 2 0 3 40]
  let rival := Tip.genesis.next 121 100 [transfer 503 3 0 4 50]
  [.applyBlock second.block, .applyBlock first.block, .applyBlock rival.block]

theorem ledgerForBranchTip_activeTip_reorg :
    ∃ node, sampleRun 2 reorgBlocks = .ok node ∧ node.reorgsTotal = 1 ∧
      ∃ tip rebuilt, node.ledger.tipHash = some tip ∧ node.toCore.ledgerForBranchTip (protocol 2) tip = .ok rebuilt ∧
        rebuilt.accounts = node.ledger.accounts ∧
        rebuilt.qcashUtxos = node.ledger.qcashUtxos ∧
        rebuilt.chain.headers = node.ledger.chain.headers ∧
        rebuilt.chain.blocks = node.ledger.chain.blocks ∧
        rebuilt.tipHeight = node.ledger.tipHeight ∧ rebuilt.tipHash = node.ledger.tipHash := by
  obtain ⟨node, hnode⟩ : ∃ node, sampleRun 2 reorgBlocks = .ok node := exists_ok (by decide +kernel)
  exact ⟨node, hnode, of_ok hnode (by decide +kernel),
    ledgerForBranchTip_activeTip (protocol_laws 2) (sampleRun_reachable hnode)⟩

end Reference

variable {ledger : Ledger} {forkChoice : F} {hash : BlockHash}

def Ledger.finalityBoundary (paqus : Paqus F) (ledger : Ledger) : Nat :=
  ledger.tipHeight.getD 0 - paqus.rules.finalityDepth

/-- A switch that is made while the finality boundary is below the given one leaves the chain at or above it. -/
def BoundaryKept (paqus : Paqus F) (boundary : Nat) (main : Main F) (block : Block) : Prop :=
  ∀ staged hash forkChoice, Admits paqus main.toCore block staged hash forkChoice →
    BestAfter paqus hash forkChoice → extendsActiveTip main.ledger block = false →
      main.ledger.finalityBoundary paqus < boundary →
        ∀ ancestor ∈ Core.commonAncestor paqus { main.toCore with forkChoice } main.ledger.tipHash hash,
          ∀ node ∈ paqus.fork.get forkChoice ancestor, boundary ≤ node.height

instance BoundaryKept.decidable (boundary : Nat) (main : Main F) (block : Block) :
    Decidable (BoundaryKept paqus boundary main block) :=
  forallAdmits.decidable paqus main.toCore block fun _ _ => _

section Step

variable (laws : ProtocolLaws paqus ranking) {core next : Core F} {block final : Block} {height boundary : Nat}

include laws

section

variable (hs : core.Sound paqus ranking) (hblock : core.ledger.block height = some final)

include hs hblock

theorem Admits.extended_block (hadm : Admits paqus core block (some ledger) hash forkChoice)
    (hext : extendsActiveTip core.ledger block = true) : ledger.block height = some final := by
  obtain ⟨path, hold, hnew, _⟩ := hadm.extended laws hs hext
  obtain ⟨node, hmem, hat⟩ := (hold.block_iff laws hs.graph).mp hblock
  exact (hnew.block_iff laws (hadm.graphSound laws hs)).mpr ⟨node, List.mem_cons_of_mem _ hmem, hat⟩

/-- A reorganisation keeps every block up to the common ancestor, which is not below the finality boundary. -/
theorem switched_block (hheight : height ≤ boundary) {plan : ReorgPlan} (hplan : core.planReorg paqus = .ok plan)
    (hledger : core.ledgerForBranchTip paqus plan.bestTip = .ok ledger)
    (hkept : core.ledger.finalityBoundary paqus < boundary →
      ∀ ancestor ∈ core.commonAncestor paqus core.ledger.tipHash plan.bestTip,
        ∀ node ∈ paqus.fork.get core.forkChoice ancestor, boundary ≤ node.height) :
    ledger.block height = some final := by
  obtain ⟨best, hbest, hhash⟩ := Option.map_eq_some_iff.mp (Core.planReorg_bestTip hplan)
  obtain ⟨path', hpath'⟩ := hs.graph.rooted.exists_path (laws.fork.best_known hbest)
  rw [hhash] at hpath'
  obtain ⟨tip, path, hactive⟩ := hs.active
  obtain ⟨own, own', ancestor, shared, rfl, rfl, hcommon, hcross⟩ := planReorg_split laws hs hplan hactive hpath'
  have hknown := hs.graph.mem_path hactive.branch (List.mem_append_right own (List.mem_cons_self ..))
  have habove : boundary ≤ ancestor.height := by
    by_cases hlow : core.ledger.finalityBoundary paqus < boundary
    · exact hkept hlow _ hcommon _ hknown
    · obtain ⟨head, rest, hhead, _⟩ := hactive.branch.head
      have htip := (hhead ▸ hactive).tipHeight laws hs.graph
      have hnot := mt (laws.fork.crosses hknown htip).mpr (Bool.eq_false_iff.mp hcross)
      rw [Ledger.finalityBoundary, htip, Option.getD_some] at hlow
      omega
  obtain ⟨node, hmem, hat, hfinal⟩ := (hactive.block_iff laws hs.graph).mp hblock
  have hshared : node ∈ ancestor :: shared := hs.graph.rooted.mem_of_rank_le hactive.branch rfl hmem (by omega)
  exact ((rebuilt_onBranch laws core hs.graph hpath' hledger).block_iff laws hs.graph).mpr
    ⟨node, List.mem_append_right _ hshared, hat, hfinal⟩

end

theorem CoreStep.block_stays {main : Main F} (hs : main.toCore.Sound paqus ranking) (hheight : height ≤ boundary)
    (hblock : main.ledger.block height = some final) (hkept : BoundaryKept paqus boundary main block)
    (hstep : CoreStep paqus block main.toCore next) : next.ledger.block height = some final := by
  cases hstep with
  | refused => exact hblock
  | inserted admitted idle => exact hblock
  | extended admitted best onTip pruned =>
    rw [pruned.same.1]
    exact admitted.extended_block laws hs hblock onTip
  | switched admitted best offTip planned rebuilt pruned =>
    rw [pruned.same.1]
    refine switched_block laws (hs.inserted laws admitted) hblock hheight planned rebuilt ?_
    cases (Core.planReorg_bestTip planned).symm.trans best
    exact hkept _ _ _ admitted best offTip

/-- In every run whose switches fork off at or above the boundary, even when it has been lowered, a final block
stays canonical. -/
theorem final_block_stays {node later : Node F} (h : Reachable paqus node) (hrun : Run paqus node later)
    (hkept : ∀ connection ∈ connectionsSince node later,
      BoundaryKept paqus (node.ledger.finalityBoundary paqus) connection.1 connection.2)
    (hheight : height ≤ node.ledger.finalityBoundary paqus)
    (hblock : node.ledger.block height = some final) : later.ledger.block height = some final := by
  refine (hrun.keeps_along (I := fun core => core.Sound paqus ranking ∧ core.ledger.block height = some final) ?_
    ⟨reachable_sound laws h, hblock⟩ hkept).2
  rintro block node ⟨hs, hblock⟩ hallowed
  have hstep := applyKnownParentBlock_core paqus block node
  exact ⟨hs.step laws hstep, hstep.block_stays laws hs hheight hblock hallowed⟩

end Step

namespace Reference

def first : Tip := Tip.genesis.next 111 1 []

def second : Tip := first.next 112 1 []

def longChain : List NodeCall :=
  [.applyBlock first.block, .applyBlock second.block, .applyBlock (second.next 113 1 []).block,
    .applyBlock ((second.next 113 1 []).next 114 1 []).block]

/-- A heavier third block lowers the tip, and with it the boundary, from the fourth to the third block. -/
theorem final_block_stays_reorg :
    ∃ node later, sampleRun 2 longChain = .ok node ∧
      later = afterCalls (protocol 2) node [.applyBlock (second.next 123 100 []).block] ∧
      later.reorgsTotal = 1 ∧ later.ledger.tipHeight = some 3 ∧ node.ledger.block 2 = some second.block ∧
      later.ledger.block 2 = some second.block := by
  obtain ⟨node, hnode⟩ : ∃ node, sampleRun 2 longChain = .ok node := exists_ok (by decide +kernel)
  have hblock : node.ledger.block 2 = some second.block := of_ok hnode (by decide +kernel)
  exact ⟨node, _, hnode, rfl, of_ok hnode (by decide +kernel), of_ok hnode (by decide +kernel), hblock,
    final_block_stays (protocol_laws 2) (sampleRun_reachable hnode) (Run.calls _ .start _)
      (of_ok hnode (by decide +kernel)) (of_ok hnode (by decide +kernel)) hblock⟩

/-- After the heavier third block a heavier second one takes the place of the final block. -/
theorem final_block_replaced :
    ∃ node later, sampleRun 2 longChain = .ok node ∧ Reachable (protocol 2) node ∧ Run (protocol 2) node later ∧
      later = afterCalls (protocol 2) node
        [.applyBlock (second.next 123 100 []).block, .applyBlock (first.next 132 1000 []).block] ∧
      node.ledger.tipHeight = some 4 ∧ node.ledger.block 2 = some second.block ∧
      later.ledger.block 2 = some (first.next 132 1000 []).block := by
  obtain ⟨node, hnode⟩ : ∃ node, sampleRun 2 longChain = .ok node := exists_ok (by decide +kernel)
  exact ⟨node, _, hnode, sampleRun_reachable hnode, Run.calls _ .start _, rfl, of_ok hnode (by decide +kernel)⟩

end Reference

variable {core : Core F} {old new : BlockHash} {node : ForkNode}

/-- The block of the node is the one of the hash, or below it. -/
def Ancestral (paqus : Paqus F) (f : F) (hash : BlockHash) (node : ForkNode) : Prop :=
  ∃ path, Branch paqus f hash path ∧ node ∈ path

theorem Ancestral.mem {f : F} {path : List ForkNode} (h : Ancestral paqus f hash node)
    (hpath : Branch paqus f hash path) : node ∈ path := by
  obtain ⟨path', hpath', hmem⟩ := h
  rwa [hpath.unique hpath']

theorem commonAncestor_none (laws : ForkChoiceLaws paqus ranking) {p q : List ForkNode}
    (hp : Branch paqus core.forkChoice old p) (hq : Branch paqus core.forkChoice new q)
    (hnone : ∀ node ∈ q, node ∉ p) : core.commonAncestor paqus (some old) new = none := by
  simp only [Core.commonAncestor, laws.ancestors hp, laws.ancestors hq, Option.bind_eq_bind, Option.bind_some]
  refine List.find?_eq_none.mpr fun hash hhash hmem => ?_
  obtain ⟨node, hnode, rfl⟩ := List.mem_map.mp hhash
  exact hnone node hnode (mem_of_hash_mem laws hp hq hnode (List.contains_iff_mem.mp hmem))

theorem commonAncestor_highest (laws : ForkChoiceLaws paqus ranking) (hrooted : Rooted paqus core.forkChoice)
    {oldNode newNode : ForkNode} (hold : paqus.fork.get core.forkChoice old = some oldNode)
    (hnew : paqus.fork.get core.forkChoice new = some newNode) :
    match core.commonAncestor paqus (some old) new with
    | none => ∀ node, ¬(Ancestral paqus core.forkChoice old node ∧ Ancestral paqus core.forkChoice new node)
    | some hash => ∃ node, paqus.fork.get core.forkChoice hash = some node ∧
        Ancestral paqus core.forkChoice old node ∧ Ancestral paqus core.forkChoice new node ∧
        (∀ other, Ancestral paqus core.forkChoice old other → Ancestral paqus core.forkChoice new other →
          other.height ≤ node.height ∧ Ancestral paqus core.forkChoice hash other) ∧
        ∃ shared branch, core.headersToTip paqus hash = .ok shared ∧
          paqus.fork.branchFromAncestor core.forkChoice hash new = some branch ∧
          core.headersToTip paqus new = .ok (shared ++ branch.map Block.header) := by
  obtain ⟨p, hp⟩ := hrooted.exists_path hold
  obtain ⟨q, hq⟩ := hrooted.exists_path hnew
  by_cases hcommon : ∃ node, node ∈ p ∧ node ∈ q
  · obtain ⟨_, hmem, hmem'⟩ := hcommon
    obtain ⟨own, own', node, shared, hpe, hqe, hown, hsome⟩ := commonAncestor_split laws hp hq hmem hmem'
    have hbelow : Branch paqus core.forkChoice node.hash (node :: shared) := by
      rw [hqe] at hq
      exact hq.suffix laws.get_hash
    rw [hsome]
    refine ⟨node, hbelow.lookup_head, ⟨p, hp, by simp [hpe]⟩, ⟨q, hq, by simp [hqe]⟩, fun other hother hother' => ?_,
      (node :: shared).reverse.map (·.block.header), own'.reverse.map ForkNode.block, headersToTip_eq laws hbelow,
      laws.branch_from (hqe ▸ hq), ?_⟩
    · -- the part of the new branch above the node holds nothing of the old one
      have hshared : other ∈ node :: shared := by
        have hin := hother'.mem hq
        rw [hqe] at hin
        rcases List.mem_append.mp hin with hown' | hshared
        · exact absurd (hother.mem hp) (hown other hown')
        · exact hshared
      exact ⟨hrooted.rank_le hbelow hshared, _, hbelow, hshared⟩
    · rw [headersToTip_eq laws hq, hqe]
      simp
  · rw [commonAncestor_none laws hp hq fun node hn hn' => hcommon ⟨node, hn', hn⟩]
    exact fun node h => hcommon ⟨node, h.1.mem hp, h.2.mem hq⟩

namespace Reference

def forked : List NodeCall :=
  [.applyBlock (Tip.genesis.next 111 1 []).block, .applyBlock (Tip.genesis.next 121 1 []).block]

theorem commonAncestor_highest_forked : ∃ node, sampleRun 2 forked = .ok node ∧
    node.commonAncestor (protocol 2) (some 111) 121 = some 100 ∧
    ∃ shared, ∃ branch : List Block, node.headersToTip (protocol 2) 100 = .ok shared ∧
      node.headersToTip (protocol 2) 121 = .ok (shared ++ branch.map Block.header) := by
  obtain ⟨node, hnode, hold, hnew, hcommon⟩ : ∃ node, sampleRun 2 forked = .ok node ∧
      (find node.forkChoice.nodes 111).isSome ∧ (find node.forkChoice.nodes 121).isSome ∧
      node.commonAncestor (protocol 2) (some 111) 121 = some 100 := Effect.exists_ok_and (by decide +kernel)
  obtain ⟨_, hold⟩ := Option.isSome_iff_exists.mp hold
  obtain ⟨_, hnew⟩ := Option.isSome_iff_exists.mp hnew
  have h := commonAncestor_highest (forkChoice_laws 2)
    (reachable_sound (protocol_laws 2) (sampleRun_reachable hnode)).graph.rooted hold hnew
  rw [hcommon] at h
  obtain ⟨_, _, _, _, _, shared, branch, hshared, _, hheaders⟩ := h
  exact ⟨node, hnode, hcommon, shared, branch, hshared, hheaders⟩

end Reference

end PaqusNetwork
