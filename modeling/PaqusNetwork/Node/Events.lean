import PaqusNetwork.Node.Finality
import PaqusNetwork.Storage.Answers

namespace PaqusNetwork

open Effect

variable {F : Type} {paqus : Paqus F} {ranking : Ranking} {eventsOf : Ledger → Block → List ProtocolEvent}

variable (paqus eventsOf) in
/-- The ledger holds, for each block of the path above its root, the events that the block causes on the
ledger before it. -/
def Records (accounts : BTreeMap Address Account) (path : List ForkNode) (ledger : Ledger) : Prop :=
  ∀ own node rest before, path = own ++ node :: rest → Replays paqus accounts rest before →
    ledger.eventsByBlock[node.hash]? = some (eventsOf before node.block)

variable (paqus eventsOf) in
def Core.Recorded (core : Core F) : Prop :=
  ∃ tip path, OnBranch paqus core.genesisAccounts core.forkChoice core.ledger tip path ∧
    Records paqus eventsOf core.genesisAccounts path core.ledger

variable {hash : BlockHash} (laws : ProtocolLaws paqus ranking)

section Path

variable {accounts : BTreeMap Address Account} {f : F} {path : List ForkNode} {ledger next : Ledger} {node : ForkNode}

theorem records_singleton : Records paqus eventsOf accounts [node] ledger := by
  intro own other rest before hpath hbefore
  have hrest : rest = [] := by
    have hlength := congrArg List.length hpath
    simp only [List.length_cons, List.length_nil, List.length_append] at hlength
    exact List.length_eq_zero_iff.mp (by omega)
  exact absurd hrest hbefore.ne_nil

theorem Records.cons (h : Records paqus eventsOf accounts path ledger) {before : Ledger}
    (hreplay : Replays paqus accounts path before)
    (hfresh : ∀ other ∈ path, node.hash ≠ other.hash)
    (hnext : next.eventsByBlock = ledger.eventsByBlock.insert node.hash (eventsOf before node.block)) :
    Records paqus eventsOf accounts (node :: path) next := by
  intro own other rest earlier hpath hearlier
  rw [hnext, OrderedMap.getElem?_insert]
  cases own with
  | nil =>
    obtain ⟨rfl, rfl⟩ := List.cons.inj hpath
    rw [if_pos rfl, hreplay.unique hearlier]
  | cons first own =>
    obtain ⟨_, rfl⟩ := List.cons.inj hpath
    rw [if_neg (hfresh other (by simp))]
    exact h own other rest earlier rfl hearlier

variable (ledgerLaws : LedgerLaws paqus) (eventLaws : EventLaws paqus eventsOf)
  (hg : GraphSound paqus ranking accounts f)

include hg in
theorem GraphSound.head_fresh (h : Branch paqus f hash (node :: path)) : ∀ other ∈ path, node.hash ≠ other.hash := by
  intro other hother
  obtain ⟨before, after, rfl⟩ := List.append_of_mem hother
  have hsplit : Branch paqus f hash ((node :: before) ++ other :: after) := h
  exact hsplit.key_ne hg.rooted.key_eq (by simp)

include ledgerLaws eventLaws hg

theorem Replays.records (h : Replays paqus accounts path ledger) (hbranch : Branch paqus f hash path) :
    Records paqus eventsOf accounts path ledger ∧
      ∀ own root, path = own ++ [root] → ledger.eventsByBlock[root.hash]? = none := by
  induction h generalizing hash with
  | genesis started inserted =>
    refine ⟨records_singleton, fun own root _ => ?_⟩
    show _[root.hash]? = none
    rw [eventLaws.started started]
    exact Std.ExtTreeMap.getElem?_empty
  | block before applied ih =>
    rename_i node path ledger next
    have hfresh := hg.head_fresh hbranch
    have hhash := hg.path_hash hbranch node (by simp)
    rw [ledgerLaws.apply_eq] at applied
    have hevents := eventLaws.executed applied hhash
    cases hbranch with
    | root _ _ => exact absurd rfl before.ne_nil
    | step found up rest =>
      obtain ⟨hrecords, hroot⟩ := ih rest
      refine ⟨hrecords.cons before hfresh hevents, fun own root hpath => ?_⟩
      cases own with
      | nil => exact absurd (List.cons.inj hpath).2 before.ne_nil
      | cons first own =>
        obtain ⟨_, rfl⟩ := List.cons.inj hpath
        rw [hevents, OrderedMap.getElem?_insert, if_neg (hfresh root (by simp))]
        exact hroot own root rfl

end Path

section Step

variable (eventLaws : EventLaws paqus eventsOf) {core next : Core F} {block : Block}

include laws

theorem Core.Recorded.pruned (hs : core.Sound paqus ranking) (h : core.Recorded paqus eventsOf)
    (hpruned : Pruned paqus core next) : next.Recorded paqus eventsOf := by
  obtain ⟨tip, path, hactive, hrecords⟩ := h
  rcases hpruned.cases_sound laws hs with rfl | ⟨tip', path', final, count, hactive', hmem, _, hfinal, hprune, he⟩
  · exact ⟨tip, path, hactive, hrecords⟩
  · obtain rfl : tip' = tip := Option.some.inj (hactive'.tipHash.symm.trans hactive.tipHash)
    obtain rfl := hactive'.branch.unique hactive.branch
    rw [he]
    exact ⟨tip', path', ⟨hactive.tipHash, prune_branch laws hs.graph hfinal hprune hactive.branch hmem,
      hactive.replay⟩, hrecords⟩

theorem Core.Recorded.inserted (hs : core.Sound paqus ranking) (h : core.Recorded paqus eventsOf)
    {staged : Option Ledger} {forkChoice : F} (admitted : Admits paqus core block staged hash forkChoice) :
    Core.Recorded paqus eventsOf { core with forkChoice } := by
  obtain ⟨tip, path, hactive, hrecords⟩ := h
  obtain ⟨parent, hgrown⟩ := admitted.grown laws hs
  exact ⟨tip, path, ⟨hactive.tipHash, hactive.branch.mono hgrown.get_old, hactive.replay⟩, hrecords⟩

include eventLaws

theorem Core.Recorded.step (hs : core.Sound paqus ranking) (h : core.Recorded paqus eventsOf)
    (hstep : CoreStep paqus block core next) : next.Recorded paqus eventsOf := by
  cases hstep with
  | refused => exact h
  | inserted admitted idle => exact h.inserted laws hs admitted
  | extended admitted best onTip pruned =>
    obtain ⟨path, hbefore, hactive, _⟩ := admitted.extended laws hs onTip
    obtain ⟨tip, path', hactive', hrecords⟩ := h
    obtain rfl : block.previousHash = tip := Option.some.inj (hbefore.tipHash.symm.trans hactive'.tipHash)
    obtain rfl := hbefore.branch.unique hactive'.branch
    have hgenesis := admitted.not_genesis laws hs
    simp only [hgenesis, Bool.false_eq_true, if_false] at pruned
    have hg := admitted.graphSound laws hs
    obtain ⟨parent, hgrown⟩ := admitted.grown laws hs
    obtain ⟨rebuilt, hreplay, hsame⟩ := hbefore.replay
    have hevents := eventLaws.executed (admitted.executed onTip) hgrown.hash_eq
    rw [← eventLaws.same block hsame] at hevents
    refine Core.Recorded.pruned laws ⟨hg, _, _, hactive⟩ ⟨_, _, hactive, ?_⟩ pruned
    exact hrecords.cons hreplay (hg.head_fresh hactive.branch) hevents
  | switched admitted best offTip planned rebuilt pruned =>
    have hg := admitted.graphSound laws hs
    obtain ⟨path, _, hon⟩ := admitted.rebuilt_onBranch laws hs best planned rebuilt
    cases (Core.planReorg_bestTip planned).symm.trans best
    have hreplay := (ledgerForBranchTip_eq_ok laws.fork hon.branch).mp rebuilt
    exact Core.Recorded.pruned laws ⟨hg, _, _, hon⟩
      ⟨_, _, hon, (hreplay.records laws.ledger eventLaws hg hon.branch).1⟩ pruned

end Step

theorem reorgToBestTip_eq_ok {node next : Node F} {u : Unit} (h : reorgToBestTip paqus node = .ok u next) :
    ∃ plan ledger, node.toCore.planReorg paqus = .ok plan ∧
      node.toCore.ledgerForBranchTip paqus plan.bestTip = .ok ledger ∧ next.ledger = ledger := by
  have hcase := reorgToBestTip_case paqus node
  generalize reorgToBestTip paqus node = result at h hcase
  cases hcase with
  | unplanned error => cases h
  | stored plan error => cases h
  | @switched plan storage ledger planned _ rebuilt =>
    have hpruned := recordSwitch_yields paqus _ node.ledger.storedBlocks plan ledger
      { node with storage, ledger, snapshotCache := none } rfl
    rw [h] at hpruned
    exact ⟨plan, ledger, planned, rebuilt, hpruned.same.1⟩

theorem connection_recorded (laws : ProtocolLaws paqus ranking) (eventLaws : EventLaws paqus eventsOf)
    {node : Node F} (h : Reachable paqus node) {connection : Main F × Block}
    (hconnection : connection ∈ node.connections) :
    connection.1.toCore.Sound paqus ranking ∧ connection.1.toCore.Recorded paqus eventsOf := by
  obtain ⟨faults, consensus, clock, config, start, hstart, hrun⟩ := h
  obtain ⟨genesis, hfresh⟩ := initFresh_fresh laws hstart
  let good : Core F → Prop := fun core => core.Sound paqus ranking ∧ core.Recorded paqus eventsOf
  have hgood : good start.toCore := by
    have hsound := hfresh.sound laws
    obtain ⟨tip, path, hactive⟩ := hsound.active
    obtain ⟨node, rest, rfl, hnode⟩ := hactive.branch.head
    obtain ⟨rfl, rfl⟩ := hfresh.known.mp hnode
    have hroot : node.parent? = none := by
      have hheight : node.height = 0 := by
        rw [hfresh.genesis_eq]
        exact hfresh.height_eq
      simp [ForkNode.parent?, hheight]
    rw [hactive.branch.unique (.root hnode hroot)] at hactive
    exact ⟨hsound, _, _, hactive, records_singleton⟩
  have hall := hrun.keeps (I := fun core connections => good core ∧
      ∀ connection ∈ connections, good connection.1.toCore) (fun block before hbefore => ?_) ⟨hgood, ?_⟩
  · exact hall.2 connection hconnection
  · have hstep := applyKnownParentBlock_core paqus block before
    refine ⟨⟨hbefore.1.1.step laws hstep, hbefore.1.2.step laws eventLaws hbefore.1.1 hstep⟩, fun other hother => ?_⟩
    rw [applyKnownParentBlock_connections] at hother
    rcases List.mem_append.mp hother with hother | hother
    · exact hbefore.2 other hother
    · rw [List.mem_singleton.mp hother]
      exact hbefore.1
  · intro other hother
    have hnone : start.connections = [] := initFresh_connections hstart
    rw [show ({ start with mempool := Mempool.withConfig config } : Node F).connections = start.connections
      from rfl, hnone] at hother
    cases hother

section Rebuilt

variable (eventLaws : EventLaws paqus eventsOf) {core : Core F} (hs : core.Sound paqus ranking)
  {tip : BlockHash} {best : ForkNode} {ledger : Ledger} (hbest : paqus.fork.get core.forkChoice tip = some best)
  (hrebuilt : core.ledgerForBranchTip paqus tip = .ok ledger)

include laws hs hbest hrebuilt

theorem genesis_shared : ∃ genesis, core.ledger.block 0 = some genesis ∧ ledger.block 0 = some genesis ∧
    paqus.blockHash genesis = .ok paqus.rules.genesisHash := by
  obtain ⟨genesis, hgenesis⟩ := hs.graph.genesis_known
  have hblock : ∀ {tip path} {active : Ledger},
      OnBranch paqus core.genesisAccounts core.forkChoice active tip path →
        active.block 0 = some genesis.block := by
    intro tip path active hactive
    obtain ⟨own, root, rfl, hroot⟩ := branch_eq_append_root laws.fork hactive.branch
    have htop := hs.graph.rooted.path_length (hactive.branch.suffix hs.graph.rooted.key_eq)
    have hhash := hs.graph.genesis_only hroot htop.symm
    rw [hhash, hgenesis] at hroot
    cases hroot
    exact (hactive.block_iff laws hs.graph).mpr ⟨genesis, by simp, htop.symm, rfl⟩
  obtain ⟨activeTip, activePath, hactive⟩ := hs.active
  obtain ⟨path, hpath⟩ := hs.graph.rooted.exists_path hbest
  exact ⟨genesis.block, hblock hactive, hblock (rebuilt_onBranch laws core hs.graph hpath hrebuilt),
    hs.graph.block_hash hgenesis⟩

include eventLaws

/-- The rebuilt ledger holds the events of the active one for each block that both chains hold, but none
for the genesis block. -/
theorem rebuilt_events (hr : core.Recorded paqus eventsOf) {height : Nat} {block : Block}
    (hold : core.ledger.block height = some block) (hnew : ledger.block height = some block)
    (hhash : paqus.blockHash block = .ok hash) :
    ledger.eventsByBlock[hash]? = if height = 0 then none else core.ledger.eventsByBlock[hash]? := by
  obtain ⟨activeTip, activePath, hactive, hrecords⟩ := hr
  obtain ⟨path, hpath⟩ := hs.graph.rooted.exists_path hbest
  have hon := rebuilt_onBranch laws core hs.graph hpath hrebuilt
  have hreplay := (ledgerForBranchTip_eq_ok laws.fork hpath).mp hrebuilt
  obtain ⟨hnewRecords, hroot⟩ := hreplay.records laws.ledger eventLaws hs.graph hpath
  obtain ⟨node, hmem, hheight, rfl⟩ := (hactive.block_iff laws hs.graph).mp hold
  obtain ⟨node', hmem', _, hsame⟩ := (hon.block_iff laws hs.graph).mp hnew
  have hnode := hs.graph.mem_path hactive.branch hmem
  have hnode' := hs.graph.mem_path hpath hmem'
  have hnodeHash := Except.ok.inj ((hs.graph.block_hash hnode).symm.trans hhash)
  have hnodeHash' := hs.graph.block_hash hnode'
  rw [hsame, hhash] at hnodeHash'
  obtain rfl : node = node' := by
    rw [← Except.ok.inj hnodeHash', ← hnodeHash, hnode] at hnode'
    exact Option.some.inj hnode'
  obtain ⟨own, rest, rfl⟩ := List.append_of_mem hmem
  obtain ⟨own', rest', rfl⟩ := List.append_of_mem hmem'
  have hsuffix := hactive.branch.suffix hs.graph.rooted.key_eq
  obtain rfl : rest = rest' := by
    have heq := hsuffix.unique (hpath.suffix hs.graph.rooted.key_eq)
    exact (List.cons.inj heq).2
  have hlength := hs.graph.rooted.path_length hsuffix
  rw [← hnodeHash]
  cases rest with
  | nil =>
    rw [if_pos (by rw [← hheight, ← hlength]; rfl)]
    exact hroot own' node rfl
  | cons parent rest =>
    have hbelow : ∃ before, Replays paqus core.genesisAccounts (parent :: rest) before := by
      cases hsuffix with
      | step _ _ below => exact hs.graph.replays below
    obtain ⟨before, hbefore⟩ := hbelow
    rw [if_neg (by rw [← hheight, ← hlength]; simp), hrecords own node _ before rfl hbefore]
    exact hnewRecords own' node _ before rfl hbefore

end Rebuilt

variable {events : EventApi}

variable (paqus events) in
/-- A reorganisation of a run from the genesis, with the database after the saves before and after it. -/
structure StoredReorg (node next : Node F) (before after : Database) : Prop where
  reached : ∃ later main block staged hash, Reachable paqus later ∧ (main, block) ∈ later.connections ∧
    Admits paqus main.toCore block staged hash node.forkChoice ∧
    node.toMain = { main with forkChoice := node.forkChoice }
  returned : reorgToBestTip paqus node = .ok () next
  savedBefore : ∃ database, Database.saveLedger paqus events node.ledger database = .ok () before
  savedAfter : Database.saveLedger paqus events next.ledger before = .ok () after
  answersBefore : before.storage.Faultless
  answersAfter : after.storage.Faultless
  sizedBefore : node.ledger.Sized paqus events
  sizedAfter : next.ledger.Sized paqus events
  unambiguousBefore : node.ledger.Unambiguous paqus events
  unambiguousAfter : next.ledger.Unambiguous paqus events

theorem loadBlockEvents_saved {ledger : Ledger} {database saved : Database} {u : Unit}
    (hsave : Database.saveLedger paqus events ledger database = .ok u saved)
    (hquiet : saved.storage.Faultless) (hsized : ledger.Sized paqus events)
    (h : ledger.Unambiguous paqus events) {height : Nat} {block : Block}
    (hblock : ledger.block height = some block) :
    outcome (Database.loadBlockEvents paqus events (paqus.blockDigest block) saved) =
      .ok ((ledger.eventsForBlock (paqus.blockDigest block)).insertionSort Indexes.eventLe) := by
  obtain ⟨_, hindexes, _⟩ := Database.saveLedger_eq_ok hsave
  have hstored := Ledger.mem_storedBlocks.mpr ⟨height, hblock⟩
  rw [← h.eventsWhere_block hstored]
  exact (Database.loadBlockEvents_gives h hsized hindexes (hsized.blockHash block hstored)).outcome (.refl hquiet)

variable {before after : Database}

/-- The stored events of the blocks that stay canonical survive a reorganisation exactly when none were
recorded for the genesis block. -/
theorem reorgToBestTip_keeps_events_iff (laws : ProtocolLaws paqus ranking)
    (eventLaws : EventLaws paqus eventsOf) {node next : Node F} {before after : Database}
    (h : StoredReorg paqus events node next before after) :
    (∀ height block, node.ledger.block height = some block → next.ledger.block height = some block →
      outcome (Database.loadBlockEvents paqus events (paqus.blockDigest block) after) =
        outcome (Database.loadBlockEvents paqus events (paqus.blockDigest block) before)) ↔
      node.ledger.eventsForBlock paqus.rules.genesisHash = [] := by
  obtain ⟨later, main, block, staged, hash, hlater, hconnection, hadmits, hmain⟩ := h.reached
  obtain ⟨hsound, hrecorded⟩ := connection_recorded laws eventLaws hlater hconnection
  have hcore : node.toCore = { main.toCore with forkChoice := node.forkChoice } := congrArg Main.toCore hmain
  have hs : node.toCore.Sound paqus ranking := hcore ▸ hsound.inserted laws hadmits
  have hr : node.toCore.Recorded paqus eventsOf := hcore ▸ hrecorded.inserted laws hsound hadmits
  obtain ⟨plan, ledger, hplan, hrebuilt, hnext⟩ := reorgToBestTip_eq_ok h.returned
  obtain ⟨best, hbest⟩ : ∃ best, paqus.fork.get node.forkChoice plan.bestTip = some best := by
    obtain ⟨best, hbest, hhash⟩ := Option.map_eq_some_iff.mp (Core.planReorg_bestTip hplan)
    exact ⟨best, hhash ▸ laws.fork.best_known hbest⟩
  rw [← hnext] at hrebuilt
  obtain ⟨database, hsavedBefore⟩ := h.savedBefore
  have hbefore := fun {height block} => @loadBlockEvents_saved F paqus events node.ledger _ _ _ hsavedBefore
    h.answersBefore h.sizedBefore h.unambiguousBefore height block
  have hafter := fun {height block} => @loadBlockEvents_saved F paqus events next.ledger _ _ _ h.savedAfter
    h.answersAfter h.sizedAfter h.unambiguousAfter height block
  have hevents := fun {height block hash} => @rebuilt_events F paqus ranking eventsOf hash laws eventLaws
    node.toCore hs plan.bestTip best next.ledger hbest hrebuilt hr height block
  have hdigest : ∀ {height block}, node.ledger.block height = some block →
      paqus.blockHash block = .ok (paqus.blockDigest block) := by
    intro height block hblock
    obtain ⟨_, hindexes, _⟩ := Database.saveLedger_eq_ok hsavedBefore
    exact ((Ledger.indexes_eq hindexes).2 block (Ledger.mem_storedBlocks.mpr ⟨height, hblock⟩)).hashed
  obtain ⟨genesis, hgenesis, hgenesis', hgenesisHash⟩ := genesis_shared laws hs hbest hrebuilt
  have hgenesisDigest := Paqus.blockDigest_eq hgenesisHash
  constructor
  · intro hall
    have hsame := hall 0 genesis hgenesis hgenesis'
    have hnone := hevents hgenesis hgenesis' hgenesisHash
    rw [if_pos rfl] at hnone
    rw [hbefore hgenesis, hafter hgenesis', hgenesisDigest] at hsame
    have hempty : next.ledger.eventsForBlock paqus.rules.genesisHash = [] := by
      unfold Ledger.eventsForBlock
      rw [hnone]
      rfl
    rw [hempty] at hsame
    have hlength := congrArg List.length (Except.ok.inj hsame)
    rw [List.length_insertionSort, List.length_insertionSort] at hlength
    exact List.length_eq_zero_iff.mp hlength.symm
  · intro hnone height block hold hnew
    rw [hbefore hold, hafter hnew]
    have hsame := hevents hold hnew (hdigest hold)
    have hequal : next.ledger.eventsForBlock (paqus.blockDigest block) =
        node.ledger.eventsForBlock (paqus.blockDigest block) := by
      unfold Ledger.eventsForBlock
      rw [hsame]
      split
      next hzero =>
        subst hzero
        rw [hgenesis] at hold
        cases hold
        rw [hgenesisDigest]
        exact hnone.symm
      next => rfl
    rw [hequal]

namespace Reference

def eventfulRun (calls : List NodeCall) : Except NodeError (Node ForkTree) :=
  (initFresh (eventful 5) (Storage.empty fun _ => none) ⟨1⟩ fun _ => 0).map fun node =>
    afterCalls (eventful 5) { node with mempool := Mempool.withConfig .default } calls

variable {calls : List NodeCall} {node : Node ForkTree}

theorem eventfulRun_reachable (h : eventfulRun calls = .ok node) : Reachable (eventful 5) node := by
  unfold eventfulRun at h
  obtain ⟨start, hstart, h⟩ := map_eq_ok.mp h
  cases h
  exact ⟨_, ⟨1⟩, fun _ => 0, .default, start, hstart, Run.calls (eventful 5) .start calls⟩

def lastReorg (calls : List NodeCall) :
    Option (Node ForkTree × Node ForkTree × Database × Database) := do
  let later ← (eventfulRun calls).toOption
  let (main, block) ← later.connections.getLast?
  let _ ← (main.toCore.validateBlockForKnownParent (eventful 5) block).toOption
  let _ ← (main.toCore.validateBlockStateForKnownParent (eventful 5) block).toOption
  let inserted ← ((eventful 5).fork.insertBlock main.forkChoice block).toOption
  let node : Node ForkTree := { later with toMain := { main with forkChoice := inserted.2 } }
  let reorganised := reorgToBestTip (eventful 5) node
  let _ ← (outcome reorganised).toOption
  let before := Database.saveLedger (eventful 5) eventApi node.ledger ⟨Storage.empty fun _ => none, .empty, some 1⟩
  let _ ← (outcome before).toOption
  let after := Database.saveLedger (eventful 5) eventApi (state reorganised).ledger (state before)
  let _ ← (outcome after).toOption
  if ∀ ledger ∈ [node.ledger, (state reorganised).ledger],
    ledger.Sized (eventful 5) eventApi ∧ ledger.Unambiguous (eventful 5) eventApi
  then return (node, state reorganised, state before, state after) else none

theorem lastReorg_stored {next : Node ForkTree} (h : (node, next, before, after) ∈ lastReorg calls) :
    StoredReorg (eventful 5) eventApi node next before after := by
  simp only [lastReorg, Option.mem_def, Option.bind_eq_bind, Option.bind_eq_some_iff, Option.pure_def,
    Option.ite_none_right_eq_some, Option.some.injEq, Prod.mk.injEq] at h
  obtain ⟨later, hlater, ⟨main, block⟩, hlast, _, hvalid, staged, hstaged, inserted, hinserted, _, hreorg, _,
    hsavedBefore, _, hsavedAfter, hledgers, rfl, rfl, rfl, rfl⟩ := h
  have hsaved := ok_of_outcome hsavedBefore
  have hsaved' := ok_of_outcome hsavedAfter
  refine ⟨⟨later, main, block, staged, inserted.1, eventfulRun_reachable (ok_of_toOption hlater),
    List.mem_of_getLast? hlast, ⟨ok_of_toOption hvalid, ok_of_toOption hstaged, ok_of_toOption hinserted⟩, rfl⟩,
    ok_of_outcome hreorg, ⟨_, hsaved⟩, hsaved', ?_, ?_, (hledgers _ (by simp)).1, (hledgers _ (by simp)).1,
    (hledgers _ (by simp)).2, (hledgers _ (by simp)).2⟩
  · intro n _
    rw [Database.saveLedger_faults hsaved]
    rfl
  · intro n _
    rw [Database.saveLedger_faults hsaved', Database.saveLedger_faults hsaved]
    rfl

def lighter : Tip := Tip.genesis.next 111 1 []

def heavier : Tip := Tip.genesis.next 121 100 []

def heaviest : Tip := heavier.next 132 1000 []

def firstReorg : List NodeCall := [.applyBlock lighter.block, .applyBlock heavier.block]

def laterReorg : List NodeCall := firstReorg ++ [.applyBlock (heavier.next 122 1 []).block, .applyBlock heaviest.block]

theorem laterReorg_keeps : ∃ node next before after, StoredReorg (eventful 5) eventApi node next before after ∧
    ∀ height block, node.ledger.block height = some block → next.ledger.block height = some block →
      outcome (Database.loadBlockEvents (eventful 5) eventApi ((eventful 5).blockDigest block) after) =
        outcome (Database.loadBlockEvents (eventful 5) eventApi ((eventful 5).blockDigest block) before) := by
  obtain ⟨⟨node, next, before, after⟩, hreorg, hnone⟩ : ∃ reorg ∈ lastReorg laterReorg,
      reorg.1.ledger.eventsForBlock 100 = [] := by decide +kernel
  have hstored := lastReorg_stored hreorg
  exact ⟨node, next, before, after, hstored,
    (reorgToBestTip_keeps_events_iff (eventful_laws 5) (event_laws 5) hstored).mpr hnone⟩

theorem firstReorg_loses : ∃ node next before after,
    StoredReorg (eventful 5) eventApi node next before after ∧
      node.ledger.block 0 = some genesisBlock ∧ next.ledger.block 0 = some genesisBlock ∧
      outcome (Database.loadBlockEvents (eventful 5) eventApi 100 before) = .ok (blockEvents genesisBlock) ∧
      outcome (Database.loadBlockEvents (eventful 5) eventApi 100 after) = .ok [] ∧
      blockEvents genesisBlock ≠ [] := by
  obtain ⟨⟨node, next, before, after⟩, hreorg, hold, hnew, hfound, hlost⟩ : ∃ reorg ∈ lastReorg firstReorg,
      reorg.1.ledger.block 0 = some genesisBlock ∧ reorg.2.1.ledger.block 0 = some genesisBlock ∧
      (outcome (Database.loadBlockEvents (eventful 5) eventApi 100 reorg.2.2.1)).toOption =
        some (blockEvents genesisBlock) ∧
      (outcome (Database.loadBlockEvents (eventful 5) eventApi 100 reorg.2.2.2)).toOption = some [] := by
    decide +kernel
  exact ⟨node, next, before, after, lastReorg_stored hreorg, hold, hnew, ok_of_toOption hfound,
    ok_of_toOption hlost, by decide⟩

end Reference

end PaqusNetwork
