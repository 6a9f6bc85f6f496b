import PaqusNetwork.Node.Frame
import PaqusNetwork.Protocol.Laws

namespace PaqusNetwork

open Effect

variable {F : Type} (paqus : Paqus F) {path : List ForkNode} {accounts : BTreeMap Address Account} {ledger : Ledger}

def chainOf : List ForkNode → Chain
  | [] => Chain.new
  | node :: path => (chainOf path).push node.block node.hash

/-- The ledger that the blocks of a path, tip first, lead to. -/
inductive Replays (accounts : BTreeMap Address Account) : List ForkNode → Ledger → Prop
  | genesis {node : ForkNode} {base : Ledger} {chain : Chain}
      (started : paqus.ledger.fromAccountsAndChain accounts Chain.new = .ok base)
      (inserted : paqus.ledger.chainInsertBlock base.chain node.block = .ok chain) :
      Replays accounts [node] { base with chain }
  | block {node : ForkNode} {path : List ForkNode} {ledger next : Ledger}
      (before : Replays accounts path ledger)
      (applied : paqus.ledger.applyBlock ledger node.block = .ok next) :
      Replays accounts (node :: path) next

variable {paqus} {node : ForkNode}

theorem Replays.ne_nil (h : Replays paqus accounts path ledger) : path ≠ [] := by
  cases h <;> simp

theorem Replays.unique {ledger' : Ledger} (h : Replays paqus accounts path ledger)
    (h' : Replays paqus accounts path ledger') : ledger = ledger' := by
  induction h generalizing ledger' with
  | genesis started inserted =>
    cases h' with
    | genesis started' inserted' =>
      rw [started] at started'
      cases started'
      rw [inserted] at inserted'
      cases inserted'
      rfl
    | block before _ => exact absurd rfl before.ne_nil
  | block before applied ih =>
    cases h' with
    | genesis _ _ => exact absurd rfl before.ne_nil
    | block before' applied' =>
      cases ih before'
      rw [applied] at applied'
      cases applied'
      rfl

theorem replays_cons_iff (hp : path ≠ []) {next : Ledger} :
    Replays paqus accounts (node :: path) next ↔
      ∃ ledger, Replays paqus accounts path ledger ∧
        paqus.ledger.applyBlock ledger node.block = .ok next := by
  refine ⟨fun h => ?_, fun ⟨ledger, before, applied⟩ => .block before applied⟩
  cases h with
  | genesis _ _ => exact absurd rfl hp
  | block before applied => exact ⟨_, before, applied⟩

theorem applyBranch_append (ledger : Ledger) (blocks : List Block) (block : Block) (next : Ledger) :
    applyBranch paqus ledger (blocks ++ [block]) = .ok next ↔
      ∃ middle, applyBranch paqus ledger blocks = .ok middle ∧
        paqus.ledger.applyBlock middle block = .ok next := by
  induction blocks generalizing ledger with
  | nil =>
    simp only [List.nil_append, applyBranch, Except.ok.injEq, exists_eq_left']
    cases h : paqus.ledger.applyBlock ledger block <;> simp
  | cons first rest ih =>
    simp only [List.cons_append, applyBranch]
    cases paqus.ledger.applyBlock ledger first with
    | error error => simp
    | ok middle => exact ih middle

theorem replays_append_iff {own : List ForkNode}
    {root : ForkNode} {base next : Ledger} (hbase : Replays paqus accounts [root] base) :
    Replays paqus accounts (own ++ [root]) next ↔
      applyBranch paqus base (own.reverse.map ForkNode.block) = .ok next := by
  induction own generalizing next with
  | nil =>
    simp only [List.nil_append, List.reverse_nil, List.map_nil, applyBranch, Except.ok.injEq]
    exact ⟨fun h => hbase.unique h, fun h => h ▸ hbase⟩
  | cons node own ih =>
    rw [List.cons_append, replays_cons_iff (by simp)]
    simp only [List.reverse_cons, List.map_append, List.map_cons, List.map_nil, applyBranch_append]
    exact exists_congr fun ledger => and_congr_left fun _ => ih

section Rebuild

variable {ranking : Ranking} (laws : ForkChoiceLaws paqus ranking)

include laws

theorem branch_eq_append_root {f : F} {hash : BlockHash} (h : Branch paqus f hash path) :
    ∃ own root, path = own ++ [root] ∧ paqus.fork.get f root.hash = some root := by
  obtain ⟨node, rest, rfl, _⟩ := h.head
  obtain ⟨own, root, he⟩ : ∃ own root, node :: rest = own ++ [root] :=
    ⟨(node :: rest).dropLast, (node :: rest).getLast (by simp), (List.dropLast_append_getLast _).symm⟩
  exact ⟨own, root, he, h.mem_lookup laws.get_hash (by simp [he])⟩

theorem ledgerForBranchTip_eq_ok {core : Core F} {tip : BlockHash} (h : Branch paqus core.forkChoice tip path) :
    core.ledgerForBranchTip paqus tip = .ok ledger ↔
      Replays paqus core.genesisAccounts path ledger := by
  obtain ⟨own, root, rfl, hroot⟩ := branch_eq_append_root laws h
  have hlast : (paqus.fork.ancestorHashes core.forkChoice tip).getLast?.getD tip = root.hash := by
    rw [laws.ancestors h]
    simp
  have hbranch := laws.branch_from h
  simp only [Core.ledgerForBranchTip, hlast, hroot, hbranch, except_bind_eq_ok, mapError_eq_ok]
  constructor
  · rintro ⟨base, hbase, chain, hchain, happly⟩
    exact (replays_append_iff (.genesis hbase hchain)).mpr happly
  · intro hreplay
    obtain ⟨base', hbase'⟩ : ∃ base, Replays paqus core.genesisAccounts [root] base := by
      clear h hbranch hlast
      induction own generalizing ledger with
      | nil => exact ⟨ledger, hreplay⟩
      | cons node own ih =>
        rw [List.cons_append, replays_cons_iff (by simp)] at hreplay
        obtain ⟨before, hbefore, _⟩ := hreplay
        exact ih hbefore
    cases hbase' with
    | genesis hbase hchain =>
      exact ⟨_, hbase, _, hchain, (replays_append_iff (.genesis hbase hchain)).mp hreplay⟩
    | block before _ => exact absurd rfl before.ne_nil

end Rebuild

section Chain

variable (ledgerLaws : LedgerLaws paqus)

include ledgerLaws

theorem Replays.chain (h : Replays paqus accounts path ledger)
    (hhash : ∀ node ∈ path, paqus.blockHash node.block = .ok node.hash) :
    ledger.chain = chainOf path := by
  induction h with
  | genesis started inserted =>
    obtain ⟨_, _, hchain⟩ := ledgerLaws.from_accounts started
    obtain ⟨hash, hb, rfl⟩ := ledgerLaws.insert_chain inserted
    rw [hhash _ (by simp)] at hb
    cases hb
    simp [chainOf, hchain]
  | block before applied ih =>
    rw [ledgerLaws.apply_eq] at applied
    obtain ⟨hash, hb, hchain⟩ := ledgerLaws.execute_chain applied
    rw [hhash _ (by simp)] at hb
    cases hb
    rw [hchain, ih fun node hn => hhash node (by simp [hn])]
    rfl

end Chain

variable (paqus) (ranking : Ranking) {hash : BlockHash} {node : ForkNode}

abbrev Rooted (forkChoice : F) : Prop :=
  Forest.Rooted ForkNode.hash ForkNode.parent? ForkNode.height (paqus.fork.get forkChoice)

/-- The fork graph is a tree of valid blocks over the genesis block. -/
structure GraphSound (accounts : BTreeMap Address Account) (forkChoice : F) : Prop where
  rooted : Rooted paqus forkChoice
  block_hash : ∀ {hash node}, paqus.fork.get forkChoice hash = some node → paqus.blockHash node.block = .ok hash
  block_height : ∀ {hash node}, paqus.fork.get forkChoice hash = some node → node.height = node.block.height
  block_parent : ∀ {hash node}, paqus.fork.get forkChoice hash = some node → node.parent = node.block.previousHash
  weighed : ∀ {hash node parent}, paqus.fork.get forkChoice hash = some node → node.height ≠ 0 →
    paqus.fork.get forkChoice node.parent = some parent →
    node.cumulativeWork = parent.cumulativeWork + ranking.work node.block
  genesis_known : ∃ genesis, paqus.fork.get forkChoice paqus.rules.genesisHash = some genesis
  genesis_only : ∀ {hash node}, paqus.fork.get forkChoice hash = some node → node.height = 0 →
    hash = paqus.rules.genesisHash
  replays : ∀ {hash path}, Branch paqus forkChoice hash path → ∃ ledger, Replays paqus accounts path ledger

/-- The active ledger is the replay of a branch of the graph, up to events. -/
structure OnBranch (accounts : BTreeMap Address Account) (forkChoice : F) (ledger : Ledger)
    (tip : BlockHash) (path : List ForkNode) : Prop where
  tipHash : ledger.tipHash = some tip
  branch : Branch paqus forkChoice tip path
  replay : ∃ rebuilt, Replays paqus accounts path rebuilt ∧ rebuilt.Same ledger

/-- The invariant of the node's ledger and fork graph. -/
structure Core.Sound (core : Core F) : Prop where
  graph : GraphSound paqus ranking core.genesisAccounts core.forkChoice
  active : ∃ tip path, OnBranch paqus core.genesisAccounts core.forkChoice core.ledger tip path

variable {paqus ranking} {rest : List ForkNode} (laws : ProtocolLaws paqus ranking) {block : Block} {f : F}

theorem GraphSound.mem_path (hg : GraphSound paqus ranking accounts f) (h : Branch paqus f hash path)
    (hn : node ∈ path) : paqus.fork.get f node.hash = some node :=
  h.mem_lookup hg.rooted.key_eq hn

theorem GraphSound.path_hash (hg : GraphSound paqus ranking accounts f) (h : Branch paqus f hash path) :
    ∀ node ∈ path, paqus.blockHash node.block = .ok node.hash :=
  fun _ hn => hg.block_hash (hg.mem_path h hn)

theorem GraphSound.chainOf_blocks (hg : GraphSound paqus ranking accounts f)
    (h : Branch paqus f hash path) (height : Nat) (block : Block) :
    (chainOf path).blocks[height]? = some block ↔
      ∃ node ∈ path, node.height = height ∧ node.block = block := by
  induction h with
  | root found top =>
    rename_i node
    simp only [chainOf, Chain.push, Chain.new, Std.ExtTreeMap.getElem?_insert, compare_eq_iff_eq,
      Std.ExtTreeMap.getElem?_empty, List.mem_singleton, exists_eq_left, hg.block_height found]
    split <;> simp_all
  | step found up rest ih =>
    rename_i node path
    have hlt := fun m hm => hg.rooted.rank_lt (m := m) (.step found up rest) hm
    simp only [chainOf, Chain.push, Std.ExtTreeMap.getElem?_insert, compare_eq_iff_eq,
      ← hg.block_height found, List.mem_cons, exists_eq_or_imp]
    by_cases he : node.height = height
    · simp only [he, if_true, Option.some.injEq, true_and]
      refine ⟨.inl, fun h => ?_⟩
      rcases h with h | ⟨m, hm, hmh, _⟩
      · exact h
      · exact absurd (hmh.trans he.symm) (Nat.ne_of_lt (hlt m hm))
    · simp only [he, if_false, false_and, false_or]
      exact ih

theorem GraphSound.chainOf_tipHeight (hg : GraphSound paqus ranking accounts f)
    (h : Branch paqus f hash (node :: rest)) : (chainOf (node :: rest)).tipHeight = some node.height := by
  simp [chainOf, Chain.push, hg.block_height h.lookup_head]

theorem chainOf_checkpoint (path : List ForkNode) : (chainOf path).checkpointHeight = none := by
  induction path with
  | nil => rfl
  | cons node rest ih => exact ih

section OnBranch

variable {tip : BlockHash} (hg : GraphSound paqus ranking accounts f)

include laws hg

theorem OnBranch.chain_eq (h : OnBranch paqus accounts f ledger tip path) : ledger.chain = chainOf path := by
  obtain ⟨rebuilt, hreplay, hsame⟩ := h.replay
  rw [← hsame.chain]
  exact hreplay.chain laws.ledger (hg.path_hash h.branch)

theorem OnBranch.block_iff (h : OnBranch paqus accounts f ledger tip path) {height : Nat} :
    ledger.block height = some block ↔ ∃ node ∈ path, node.height = height ∧ node.block = block := by
  unfold Ledger.block
  rw [h.chain_eq laws hg]
  exact hg.chainOf_blocks h.branch height block

theorem OnBranch.tipHeight
    (h : OnBranch paqus accounts f ledger tip (node :: rest)) : ledger.tipHeight = some node.height := by
  unfold Ledger.tipHeight
  rw [h.chain_eq laws hg]
  exact hg.chainOf_tipHeight h.branch

theorem OnBranch.checkpoint (h : OnBranch paqus accounts f ledger tip path) : ledger.chain.checkpointHeight = none := by
  rw [h.chain_eq laws hg]
  exact chainOf_checkpoint path

end OnBranch

/-- What the checks and the insertion of an admitted block establish. -/
structure Grown (paqus : Paqus F) (ranking : Ranking) (f : F) (block : Block) (hash : BlockHash)
    (parent : ForkNode) (f' : F) : Prop where
  hash_eq : paqus.blockHash block = .ok hash
  fresh : paqus.fork.get f hash = none
  parent_known : paqus.fork.get f block.previousHash = some parent
  height_eq : block.height = parent.height + 1
  get_eq : ∀ key, paqus.fork.get f' key =
    if key = hash then some (ForkNode.of paqus ranking f hash block) else paqus.fork.get f key

section Grown

variable {f f' : F} {parent : ForkNode} (h : Grown paqus ranking f block hash parent f')

include h

theorem Grown.get_new : paqus.fork.get f' hash = some (ForkNode.of paqus ranking f hash block) := by
  rw [h.get_eq, if_pos rfl]

theorem Grown.get_old (key : BlockHash)
    (node : ForkNode) (hn : paqus.fork.get f key = some node) : paqus.fork.get f' key = some node := by
  have hne : key ≠ hash := by
    rintro rfl
    rw [h.fresh] at hn
    cases hn
  rw [h.get_eq, if_neg hne, hn]

theorem Grown.cases_get {key : BlockHash} (hn : paqus.fork.get f' key = some node) :
    (key = hash ∧ node = ForkNode.of paqus ranking f hash block) ∨
      paqus.fork.get f key = some node := by
  rw [h.get_eq] at hn
  split at hn
  next he => exact .inl ⟨he, by simpa using hn.symm⟩
  next => exact .inr hn

theorem Grown.of_parent : (ForkNode.of paqus ranking f hash block).parent? = some block.previousHash := by
  have hh := h.height_eq
  simp [ForkNode.parent?, ForkNode.of, hh]

theorem Grown.branch (hp : Branch paqus f block.previousHash path) :
    Branch paqus f' hash (ForkNode.of paqus ranking f hash block :: path) :=
  .step h.get_new h.of_parent (hp.mono h.get_old)

theorem Grown.rooted (hr : Rooted paqus f) : Rooted paqus f' where
  key_eq hn := by
    rcases h.cases_get hn with ⟨rfl, rfl⟩ | hn
    · rfl
    · exact hr.key_eq hn
  root_rank hn hp := by
    rcases h.cases_get hn with ⟨rfl, rfl⟩ | hn
    · rw [h.of_parent] at hp
      cases hp
    · exact hr.root_rank hn hp
  parent_known hn hp := by
    rcases h.cases_get hn with ⟨rfl, rfl⟩ | hn
    · rw [h.of_parent] at hp
      cases hp
      exact ⟨parent, h.get_old _ _ h.parent_known, h.height_eq⟩
    · obtain ⟨m, hm, hrank⟩ := hr.parent_known hn hp
      exact ⟨m, h.get_old _ _ hm, hrank⟩

theorem Grown.cases_branch (hr : Rooted paqus f) {key : BlockHash} (hp : Branch paqus f' key path) :
    Branch paqus f key path ∨
      (key = hash ∧ ∃ rest, path = ForkNode.of paqus ranking f hash block :: rest ∧
        Branch paqus f block.previousHash rest) := by
  obtain ⟨node, rest, rfl, hn⟩ := hp.head
  rcases h.cases_get hn with ⟨rfl, rfl⟩ | hn
  · obtain ⟨old, hold⟩ := hr.exists_path h.parent_known
    obtain rfl : rest = old := by simpa using hp.unique (h.branch hold)
    exact .inr ⟨rfl, rest, rfl, hold⟩
  · obtain ⟨old, hold⟩ := hr.exists_path hn
    rw [hp.unique (hold.mono h.get_old)]
    exact .inl hold

end Grown

section Insert

variable {core : Core F} {staged : Option Ledger} {forkChoice : F}

include laws

theorem Admits.grown (hs : core.Sound paqus ranking) (h : Admits paqus core block staged hash forkChoice) :
    ∃ parent, Grown paqus ranking core.forkChoice block hash parent forkChoice := by
  obtain ⟨hhash, hfresh⟩ := laws.fork.insert_hash h.inserted
  obtain ⟨tip, path, hactive⟩ := hs.active
  have hvalid := h.valid
  simp only [Core.validateBlockForKnownParent, Core.validateCheckpoint,
    hactive.checkpoint laws hs.graph, except_bind_eq_ok] at hvalid
  obtain ⟨_, _, hvalid⟩ := hvalid
  split at hvalid
  next hzero =>
    -- a genesis block that passes has the built-in hash, which the graph already holds
    simp only [except_bind_eq_ok, ensureExpectedGenesisHash, hhash] at hvalid
    obtain ⟨_, _, hvalid⟩ := hvalid
    split at hvalid
    · cases hvalid
    next he =>
      obtain ⟨genesis, hg⟩ := hs.graph.genesis_known
      rw [not_not.mp he] at hfresh
      rw [hfresh] at hg
      cases hg
  next hzero =>
    split at hvalid
    · cases hvalid
    next parent hparent =>
      have hnext := laws.consensus.next_height (mapError_eq_ok.mp hvalid)
      rw [← hs.graph.block_height hparent] at hnext
      exact ⟨parent, hhash, hfresh, hparent, hnext, laws.fork.insert_get h.inserted⟩

theorem Admits.not_genesis (hs : core.Sound paqus ranking)
    (h : Admits paqus core block staged hash forkChoice) : block.isGenesis = false := by
  obtain ⟨parent, hgrown⟩ := h.grown laws hs
  have hh := hgrown.height_eq
  unfold Block.height at hh
  simp [Block.isGenesis, hh]

theorem stateRoot_of_valid (h : validateCanonicalStateRoot paqus ledger block = .ok ()) :
    ∃ next, paqus.ledger.executeBlock ledger block = .ok next := by
  unfold validateCanonicalStateRoot at h
  split at h
  · cases h
  next root hroot =>
    split at h
    · cases h
    next he =>
      rw [← not_not.mp he] at hroot
      exact laws.ledger.execute_of_root hroot

theorem Admits.replays (hs : core.Sound paqus ranking) (h : Admits paqus core block staged hash forkChoice)
    (hp : Branch paqus core.forkChoice block.previousHash path) (hn : node.block = block) :
    ∃ ledger, Replays paqus core.genesisAccounts (node :: path) ledger := by
  have hstaged := h.staged
  unfold Core.validateBlockStateForKnownParent at hstaged
  split at hstaged
  next hext =>
    obtain ⟨tip, active, hactive⟩ := hs.active
    have htip : block.previousHash = tip := by
      simpa [extendsActiveTip, hactive.tipHash] using hext
    obtain ⟨rebuilt, hreplay, hsame⟩ := hactive.replay
    simp only [except_bind_eq_ok, mapError_eq_ok] at hstaged
    obtain ⟨_, _, next, hexec, _⟩ := hstaged
    obtain ⟨next', hexec', _⟩ := laws.ledger.execute_same hsame.symm hexec
    rw [htip] at hp
    rw [hp.unique hactive.branch]
    exact ⟨next', .block hreplay (by rw [laws.ledger.apply_eq, hn]; exact hexec')⟩
  next hext =>
    simp only [except_bind_eq_ok] at hstaged
    obtain ⟨ledger, hledger, _, hroot, _⟩ := hstaged
    obtain ⟨next, hexec⟩ := stateRoot_of_valid laws hroot
    rw [ledgerForBranchTip_eq_ok laws.fork hp] at hledger
    exact ⟨next, .block hledger (by rw [laws.ledger.apply_eq, hn]; exact hexec)⟩

theorem Admits.graphSound (hs : core.Sound paqus ranking) (h : Admits paqus core block staged hash forkChoice) :
    GraphSound paqus ranking core.genesisAccounts forkChoice := by
  obtain ⟨parent, hgrown⟩ := h.grown laws hs
  have hg := hs.graph
  refine ⟨hgrown.rooted hg.rooted, ?_, ?_, ?_, ?_, ?_, ?_, ?_⟩
  · intro key node hn
    rcases hgrown.cases_get hn with ⟨rfl, rfl⟩ | hn
    · exact hgrown.hash_eq
    · exact hg.block_hash hn
  · intro key node hn
    rcases hgrown.cases_get hn with ⟨rfl, rfl⟩ | hn
    · rfl
    · exact hg.block_height hn
  · intro key node hn
    rcases hgrown.cases_get hn with ⟨rfl, rfl⟩ | hn
    · rfl
    · exact hg.block_parent hn
  · intro key node up hn hz hup
    rcases hgrown.cases_get hn with ⟨rfl, rfl⟩ | hn
    · have hup' := hgrown.get_old _ _ hgrown.parent_known
      change paqus.fork.get forkChoice block.previousHash = some up at hup
      rw [hup] at hup'
      cases hup'
      simp [ForkNode.of, hgrown.parent_known]
    · have hp : node.parent? = some node.parent := by simp [ForkNode.parent?, hz]
      obtain ⟨m, hm, _⟩ := hg.rooted.parent_known hn hp
      have hm' := hgrown.get_old _ _ hm
      rw [hup] at hm'
      cases hm'
      exact hg.weighed hn hz hm
  · obtain ⟨genesis, hgen⟩ := hg.genesis_known
    exact ⟨genesis, hgrown.get_old _ _ hgen⟩
  · intro key node hn hz
    rcases hgrown.cases_get hn with ⟨rfl, rfl⟩ | hn
    · have hh := hgrown.height_eq
      change block.height = 0 at hz
      omega
    · exact hg.genesis_only hn hz
  · intro key path hp
    rcases hgrown.cases_branch hg.rooted hp with hp | ⟨rfl, rest, rfl, hrest⟩
    · exact hg.replays hp
    · exact h.replays laws hs hrest rfl

end Insert

end PaqusNetwork
