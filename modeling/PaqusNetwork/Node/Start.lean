import PaqusNetwork.Node.Reorg

namespace PaqusNetwork

open Effect Std

variable {storage : Storage} {blocks : List Block} {ledger : Ledger}

namespace Storage

variable {F : Type} {paqus : Paqus F}

theorem storeBlocks_ok {stored : Storage} (h : storeBlocks paqus blocks storage = .ok stored) :
    stored.rollbackIssues = storage.rollbackIssues ∧ stored.rollbackProofContexts = storage.rollbackProofContexts ∧
      stored.faults = storage.faults ∧
      ∀ (hash : BlockHash) (block : Block), stored.blocksByHash[hash]? = some block →
        storage.blocksByHash[hash]? = some block ∨ block ∈ blocks := by
  induction blocks generalizing storage with
  | nil => cases h; exact ⟨rfl, rfl, rfl, fun _ _ h => .inl h⟩
  | cons first rest ih =>
    simp only [storeBlocks, except_bind_eq_ok] at h
    obtain ⟨hash, _, _, _, h⟩ := h
    obtain ⟨hissues, hcontexts, hfaults, hblocks⟩ := ih h
    refine ⟨hissues, hcontexts, hfaults, fun key block hb => ?_⟩
    rcases hblocks key block hb with hb | hb
    · rw [ExtTreeMap.getElem?_insert] at hb
      split at hb
      · cases hb; exact .inr (by simp)
      · exact .inl hb
    · exact .inr (by simp [hb])

theorem saveLedger_ok {storage' : Storage} (h : saveLedger paqus ledger storage = .ok () storage') :
    ∃ accounts, storedGenesisAccounts paqus ledger = .ok accounts ∧
      storage'.genesisAccounts = (match accounts with
        | some accounts => some accounts
        | none => storage'.genesisAccounts) ∧
      storage'.rollbackIssues = storage.rollbackIssues ∧
      storage'.rollbackProofContexts = storage.rollbackProofContexts ∧
      storage'.faults = storage.faults ∧
      ∀ (hash : BlockHash) (block : Block), storage'.blocksByHash[hash]? = some block →
        storage.blocksByHash[hash]? = some block ∨ block ∈ ledger.storedBlocks := by
  unfold saveLedger at h
  simp only [bind_eq_ok, liftExcept_eq_ok, get_apply, set_apply] at h
  obtain ⟨found, _, ⟨hfound, rfl⟩, _, _, hcall, _, _, hget, stored, _, ⟨hstored, rfl⟩, _, _, hset, hlast⟩ := h
  obtain ⟨_, rfl⟩ := databaseCall_ok hcall
  cases hget
  cases hset
  obtain ⟨_, rfl⟩ := databaseCall_ok hlast
  obtain ⟨hissues, hcontexts, hfaults, hblocks⟩ := storeBlocks_ok hstored
  refine ⟨found, hfound, ?_, hissues, hcontexts, hfaults, hblocks⟩
  cases found <;> rfl

end Storage

variable {F : Type} {paqus : Paqus F} {ranking : Ranking} {f : F}

theorem indexPass_known
    (h : ∀ block ∈ blocks, ∃ hash, paqus.blockHash block = .ok hash ∧ paqus.contains f hash = true) :
    ∃ progressed, indexPass paqus blocks f = .ok (f, [], progressed) := by
  induction blocks with
  | nil => exact ⟨false, rfl⟩
  | cons block rest ih =>
    obtain ⟨hash, hhash, hknown⟩ := h block (by simp)
    obtain ⟨progressed, hrest⟩ := ih fun b hb => h b (by simp [hb])
    refine ⟨true, ?_⟩
    simp only [indexPass, hhash, mapError_ok, hrest, bind, Except.bind, hknown, if_true]
    rfl

theorem indexPasses_known
    (h : ∀ block ∈ blocks, ∃ hash, paqus.blockHash block = .ok hash ∧ paqus.contains f hash = true)
    (passes : Nat) : indexPasses paqus passes blocks f = .ok f := by
  induction passes generalizing blocks with
  | zero => rfl
  | succ passes ih =>
    obtain ⟨progressed, hpass⟩ := indexPass_known h
    simp only [indexPasses, hpass, bind, Except.bind]
    cases progressed with
    | false => rfl
    | true => exact ih (by simp)

theorem toList_eq_singleton {α β : Type} [Ord α] [Std.TransOrd α] [Std.LawfulEqOrd α]
    {map : BTreeMap α β} {key : α} {value : β}
    (h : map = (∅ : BTreeMap α β).insert key value) : map.toList = [(key, value)] := by
  have hlen : map.toList.length = 1 := by
    rw [ExtTreeMap.length_toList, h, ExtTreeMap.size_insert]
    simp
  have hmem : (key, value) ∈ map.toList := by
    rw [ExtTreeMap.mem_toList_iff_getElem?_eq_some, h]
    simp
  obtain ⟨entry, he⟩ := List.length_eq_one_iff.mp hlen
  rw [he] at hmem ⊢
  rw [List.mem_singleton.mp hmem]

/-- A node that has seen no block but the genesis block. -/
structure Fresh (paqus : Paqus F) (ranking : Ranking) (faults : Nat → Option StorageError)
    (clock : Nat → Nat) (genesis : ForkNode) (node : Node F) : Prop where
  known : ∀ {key n}, paqus.fork.get node.forkChoice key = some n ↔ key = paqus.rules.genesisHash ∧ n = genesis
  block_hash : paqus.blockHash genesis.block = .ok paqus.rules.genesisHash
  genesis_eq : genesis = ForkNode.of paqus ranking paqus.fork.new paqus.rules.genesisHash genesis.block
  height_eq : genesis.block.height = 0
  ledger_eq : paqus.ledger.genesisLedger = .ok node.ledger
  chain_eq : node.ledger.chain = Chain.new.push genesis.block paqus.rules.genesisHash
  accounts_eq : node.genesisAccounts = node.ledger.accounts
  mempool_eq : node.mempool = Mempool.new
  orphans_eq : node.orphanBlocks = ∅
  index_eq : node.orphanChildrenByParent = ∅
  clock_eq : node.clock = clock
  faults_eq : node.storage.faults = faults
  issues_eq : node.storage.rollbackIssues = ∅

theorem indexStoredBlocks_keeps (built : Node F) :
    Keeps (fun node : Node F => ∃ forkChoice storage, node = { built with forkChoice, storage })
      (indexStoredBlocks paqus) := by
  unfold indexStoredBlocks
  refine Keeps.bind ?_ fun blocks => ?_
  · rintro node ⟨forkChoice, storage, rfl⟩
    unfold onStorage
    rw [state_focus]
    exact ⟨forkChoice, _, rfl⟩
  refine Keeps.get.bind fun node => ?_
  refine Keeps.bind_liftExcept fun graph _ => ?_
  refine Keeps.bind (Yields.modify ?_) fun _ => Yields.discard (pruneFinalizedForks_keeps paqus ?_)
  · rintro _ ⟨forkChoice, storage, rfl⟩
    exact ⟨graph, storage, rfl⟩
  · rintro _ pruned ⟨forkChoice, storage, rfl⟩
    exact ⟨pruned, storage, rfl⟩

variable {node : Node F} {clock : Nat → Nat}

theorem indexStoredBlocks_built {built : Node F} (h : indexStoredBlocks paqus built = .ok () node) :
    ∃ forkChoice storage, node = { built with forkChoice, storage } := by
  have hnode := @indexStoredBlocks_keeps F paqus built built ⟨built.forkChoice, built.storage, rfl⟩
  rw [h] at hnode
  exact hnode

section Built

variable {database : Storage} {consensus : Consensus} {node : Node F}
  (h : initFresh paqus database consensus clock = .ok node)

include h

theorem initFresh_eq_ok :
    ∃ stored storage built, initStored paqus database = .ok stored storage ∧
      tryWithGenesisAccounts paqus stored.1 storage consensus stored.2 clock = .ok built ∧
      indexStoredBlocks paqus built = .ok () node := by
  unfold initFresh at h
  cases hstored : initStored paqus database with
  | error error storage => rw [hstored] at h; cases h
  | ok stored storage =>
    simp only [hstored] at h
    split at h
    next => cases h
    next built htry =>
      cases hstart : indexStoredBlocks paqus built with
      | error error node' => rw [hstart] at h; cases h
      | ok _ node' =>
        rw [hstart] at h
        cases h
        exact ⟨stored, storage, built, rfl, htry, hstart⟩

theorem initFresh_cache : CoreCache.fromLedger paqus node.ledger = .ok node.cache := by
  obtain ⟨_, _, _, _, htry, hindex⟩ := initFresh_eq_ok h
  obtain ⟨_, _, rfl⟩ := indexStoredBlocks_built hindex
  simp only [tryWithGenesisAccounts, except_bind_eq_ok, mapError_eq_ok] at htry
  obtain ⟨cache, hcache, _, _, hbuilt⟩ := htry
  cases hbuilt
  exact hcache

theorem initFresh_connections : node.connections = [] := by
  obtain ⟨_, _, _, _, htry, hindex⟩ := initFresh_eq_ok h
  obtain ⟨_, _, rfl⟩ := indexStoredBlocks_built hindex
  simp only [tryWithGenesisAccounts, except_bind_eq_ok, mapError_eq_ok] at htry
  obtain ⟨_, _, _, _, hbuilt⟩ := htry
  cases hbuilt
  rfl

end Built

section Init

variable (laws : ProtocolLaws paqus ranking) {faults : Nat → Option StorageError} {genesis : Block} {hash : BlockHash}

theorem initStored_ok {accounts : BTreeMap Address Account} {opened saved : Storage} (hzero : genesis.height = 0)
    (hchain : ledger.chain = Chain.new.push genesis hash)
    (hnext : ∃ next, paqus.ledger.applyBlock paqus.ledger.new genesis = .ok next ∧ next.accounts = ledger.accounts)
    (hopened : opened.blocksByHash = ∅ ∧ opened.rollbackIssues = ∅ ∧ opened.faults = faults)
    (hsave : Storage.saveLedger paqus ledger opened = .ok () saved)
    (hinit : initGenesisAccounts paqus ledger saved = .ok accounts storage) :
    accounts = ledger.accounts ∧ storage.rollbackIssues = ∅ ∧ storage.faults = faults ∧
      ∀ (key : BlockHash) (block : Block), storage.blocksByHash[key]? = some block → block = genesis := by
  obtain ⟨found, hfound, hstored, hissues, _, hfaults, hblocks⟩ := Storage.saveLedger_ok hsave
  obtain ⟨next, hnext, hnextAccounts⟩ := hnext
  have hblock : ledger.block 0 = some genesis := by
    simp [Ledger.block, hchain, Chain.push, hzero]
  have hfound' : found = some ledger.accounts := by
    simp only [Storage.storedGenesisAccounts, hblock, Storage.genesisAccountsFromLedger, hzero,
      hnext, hnextAccounts] at hfound
    simpa [Except.map] using hfound.symm
  subst hfound'
  have hlist : ledger.chain.blocks.toList = [(genesis.height, genesis)] := toList_eq_singleton (by rw [hchain]; rfl)
  unfold initGenesisAccounts at hinit
  simp only [bind_eq_ok, focus_eq_ok] at hinit
  obtain ⟨loaded, s, ⟨s', hload, hs⟩, hinit⟩ := hinit
  simp only [Storage.loadGenesisAccounts, bind_eq_ok, get_apply, pure_apply] at hload
  obtain ⟨_, s₁, hcall, _, s₂, hget, hret⟩ := hload
  obtain ⟨_, rfl⟩ := Storage.databaseCall_ok hcall
  cases hget
  cases hret
  subst hs
  simp only [id_eq] at hinit hstored
  rw [hstored] at hinit
  cases hinit
  refine ⟨rfl, hissues.trans hopened.2.1, hfaults.trans hopened.2.2, fun key block hb => ?_⟩
  rcases hblocks key block hb with hb | hb
  · rw [hopened.1] at hb
    simp at hb
  · simpa [hlist, eq_comm] using hb

theorem indexStoredBlocks_known {node' : Node F}
    (hblocks : ∀ (key : BlockHash) (block : Block), node.storage.blocksByHash[key]? = some block →
      ∃ hash, paqus.blockHash block = .ok hash ∧ paqus.contains node.forkChoice hash = true)
    (h : indexStoredBlocks paqus node = .ok () node') :
    Pruned paqus node.toCore node'.toCore ∧ node'.mempool = node.mempool ∧
      node'.pool = node.pool ∧ node'.storage.faults = node.storage.faults ∧
      node'.storage.rollbackIssues = node.storage.rollbackIssues := by
  unfold indexStoredBlocks at h
  simp only [bind_eq_ok, onStorage, focus_eq_ok, get_apply, modify_apply] at h
  obtain ⟨blocks, s₁, ⟨storage, hload, rfl⟩, s₂, _, hget, f, s₃, hindex, _, s₄, hmod, hprune⟩ := h
  cases hget
  simp only [Storage.loadBlocksByHash, bind_eq_ok, get_apply, pure_apply] at hload
  obtain ⟨_, t₁, hcall, _, t₂, hget, hret⟩ := hload
  obtain ⟨_, rfl⟩ := Storage.databaseCall_ok hcall
  cases hget
  cases hret
  have hknown : ∀ block ∈ (node.storage.blocksByHash.toList.map Prod.snd).insertionSort
      (fun left right => left.height ≤ right.height),
      ∃ hash, paqus.blockHash block = .ok hash ∧ paqus.contains node.forkChoice hash = true := by
    intro block hb
    rw [List.mem_insertionSort, List.mem_map] at hb
    obtain ⟨⟨key, found⟩, hentry, rfl⟩ := hb
    exact hblocks key found (ExtTreeMap.mem_toList_iff_getElem?_eq_some.mp hentry)
  rw [indexPasses_known hknown] at hindex
  cases hindex
  cases hmod
  have hstate : state (discard (pruneFinalizedForks paqus)
      ({ node with storage := { node.storage with calls := node.storage.calls + 1 } } : Node F)) = node' := by
    rw [show discard (pruneFinalizedForks paqus) _ = _ from hprune, state_ok]
  rw [state_discard] at hstate
  obtain ⟨forkChoice, hforked⟩ := pruneFinalizedForks_state paqus
    ({ node with storage := { node.storage with calls := node.storage.calls + 1 } } : Node F)
  have hpruned := pruneFinalizedForks_core paqus
    ({ node with storage := { node.storage with calls := node.storage.calls + 1 } } : Node F)
  rw [hstate] at hforked hpruned
  subst hforked
  exact ⟨hpruned, rfl, rfl, rfl, rfl⟩

include laws

theorem indexChain_genesis
    (hchain : ledger.chain = Chain.new.push genesis hash) (hhash : paqus.blockHash genesis = .ok hash)
    (h : indexChain paqus ledger.chain.blocks ledger.chain.headers.toList paqus.fork.new = .ok f)
    (key : BlockHash) :
    paqus.fork.get f key =
      if key = hash then some (ForkNode.of paqus ranking paqus.fork.new hash genesis) else none := by
  have hlist : ledger.chain.headers.toList = [(genesis.height, genesis.header)] :=
    toList_eq_singleton (by rw [hchain]; rfl)
  have hblock : ledger.chain.blocks[genesis.height]? = some genesis := by
    simp [hchain, Chain.push]
  rw [hlist] at h
  simp only [indexChain, hblock] at h
  split at h
  next => cases h
  next inserted hinsert =>
    cases h
    obtain ⟨hhash', _⟩ := laws.fork.insert_hash hinsert
    rw [hhash] at hhash'
    cases hhash'
    rw [laws.fork.insert_get hinsert, laws.fork.get_new]

theorem initStored_fresh {stored : Ledger × BTreeMap Address Account}
    (h : initStored paqus (Storage.empty faults) = .ok stored storage) :
    ∃ genesis, genesis.height = 0 ∧ paqus.blockHash genesis = .ok paqus.rules.genesisHash ∧
      paqus.ledger.genesisLedger = .ok stored.1 ∧
      stored.1.chain = Chain.new.push genesis paqus.rules.genesisHash ∧
      stored.2 = stored.1.accounts ∧ storage.rollbackIssues = ∅ ∧ storage.faults = faults ∧
      ∀ (key : BlockHash) (block : Block), storage.blocksByHash[key]? = some block → block = genesis := by
  unfold initStored at h
  simp only [bind_eq_ok, discard_eq_ok, focus_eq_ok, liftExcept_eq_ok, pure_apply, id_eq] at h
  obtain ⟨_, opened, ⟨_, _, htip, rfl⟩, ledger, _, ⟨hledger, rfl⟩, _, _, ⟨saved, hsave, rfl⟩, _, _,
    ⟨hensure, rfl⟩, accounts, _, hinit, hret⟩ := h
  cases hret
  obtain ⟨genesis, hash, hzero, hhash, hchain, _, _, _, hnext⟩ := laws.ledger.genesis hledger
  have hblock : ledger.block 0 = some genesis := by
    simp [Ledger.block, hchain, Chain.push, hzero]
  simp only [ensureExpectedGenesis, hblock, ensureExpectedGenesisHash, hhash] at hensure
  split at hensure
  · cases hensure
  next he =>
    rw [not_not.mp he] at hhash hchain
    simp only [Storage.loadTip, bind_eq_ok, get_apply, pure_apply] at htip
    obtain ⟨_, _, hcall, _, _, hget, hret⟩ := htip
    obtain ⟨_, rfl⟩ := Storage.databaseCall_ok hcall
    cases hget
    cases hret
    obtain ⟨haccounts, hissues, hfaults, hblocks⟩ := initStored_ok hzero hchain hnext ⟨rfl, rfl, rfl⟩ hsave hinit
    exact ⟨genesis, hzero, hhash, hledger, hchain, haccounts, hissues, hfaults, hblocks⟩

theorem Pruned.only_root {core next : Core F} {genesis : ForkNode} (h : Pruned paqus core next)
    (hzero : genesis.block.height = 0) (hroot : genesis.parent? = none)
    (hhash : paqus.blockHash genesis.block = .ok paqus.rules.genesisHash)
    (hchain : core.ledger.chain = Chain.new.push genesis.block paqus.rules.genesisHash)
    (hget : ∀ key n, paqus.fork.get core.forkChoice key = some n ↔
      key = paqus.rules.genesisHash ∧ n = genesis) (key : BlockHash) (n : ForkNode) :
    paqus.fork.get next.forkChoice key = some n ↔ key = paqus.rules.genesisHash ∧ n = genesis := by
  cases h with
  | kept => exact hget key n
  | pruned tip final_eq hash_eq pruned =>
    rename_i tipHeight final hash count f
    have hfinal : final = genesis.block := by
      have htip : tipHeight = 0 := by
        simpa [Ledger.tipHeight, hchain, Chain.push, hzero] using tip.symm
      simpa [Ledger.block, hchain, Chain.push, hzero, htip] using final_eq.symm
    rw [hfinal, hhash] at hash_eq
    cases hash_eq
    have hself := (hget paqus.rules.genesisHash genesis).mpr ⟨rfl, rfl⟩
    rw [laws.fork.prune_get pruned hself key n, hget]
    refine ⟨fun h => h.1, ?_⟩
    rintro ⟨rfl, rfl⟩
    exact ⟨⟨rfl, rfl⟩, .inl ⟨[n], .root hself hroot, by simp⟩⟩

theorem initFresh_fresh {consensus : Consensus}
    (h : initFresh paqus (Storage.empty faults) consensus clock = .ok node) :
    ∃ genesis, Fresh paqus ranking faults clock genesis node := by
  obtain ⟨stored, storage, built, hstored, htry, hstart⟩ := initFresh_eq_ok h
  obtain ⟨genesis, hzero, hhash, hledger, hchain, haccounts, hissues, hfaults, hblocks⟩ := initStored_fresh laws hstored
  simp only [tryWithGenesisAccounts, except_bind_eq_ok, mapError_eq_ok] at htry
  obtain ⟨cache, _, f, hindex, hbuilt⟩ := htry
  have hget := indexChain_genesis laws hchain hhash hindex
  cases hbuilt
  let root := ForkNode.of paqus ranking paqus.fork.new paqus.rules.genesisHash genesis
  have hknown : ∀ key n, paqus.fork.get f key = some n ↔ key = paqus.rules.genesisHash ∧ n = root := by
    intro key n
    rw [hget]
    split
    next he => simp [he, root, eq_comm]
    next he => simp [he]
  have hcontains : paqus.contains f paqus.rules.genesisHash = true := by
    simp [Paqus.contains, (hknown _ root).mpr ⟨rfl, rfl⟩]
  obtain ⟨hpruned, hmempool, hpool, hfaults', hissues'⟩ := indexStoredBlocks_known
    (fun key block hb => ⟨_, by rw [hblocks key block hb]; exact hhash, hcontains⟩) hstart
  have hledger' : node.ledger = stored.1 := hpruned.same.1
  have haccounts' : node.genesisAccounts = stored.2 := hpruned.same.2.1
  have hroot : root.parent? = none := by simp [root, ForkNode.parent?, ForkNode.of, hzero]
  exact ⟨root, {
    known := hpruned.only_root laws hzero hroot hhash hchain hknown _ _
    block_hash := hhash
    genesis_eq := rfl
    height_eq := hzero
    ledger_eq := by rw [hledger', hledger]
    chain_eq := by rw [hledger']; exact hchain
    accounts_eq := by rw [haccounts', hledger', haccounts]
    mempool_eq := hmempool
    orphans_eq := congrArg Node.Pool.orphanBlocks hpool
    index_eq := congrArg Node.Pool.orphanChildrenByParent hpool
    clock_eq := congrArg Node.Pool.clock hpool
    faults_eq := hfaults'.trans hfaults
    issues_eq := hissues'.trans hissues }⟩

theorem Fresh.sound {genesis : ForkNode} {node : Node F}
    (h : Fresh paqus ranking faults clock genesis node) : node.toCore.Sound paqus ranking := by
  have hheight : genesis.height = 0 := by rw [h.genesis_eq]; exact h.height_eq
  have hhash : genesis.hash = paqus.rules.genesisHash := by rw [h.genesis_eq]; rfl
  have hroot : genesis.parent? = none := by simp [ForkNode.parent?, hheight]
  have hself := h.known.mpr ⟨rfl, rfl⟩
  have hbranch : Branch paqus node.forkChoice paqus.rules.genesisHash [genesis] := .root hself hroot
  obtain ⟨block, hash, hzero, hhash', hchain, hqcash, ⟨base, hbase⟩, ⟨chain, hinsert⟩, _⟩ :=
    laws.ledger.genesis h.ledger_eq
  obtain ⟨hbaseAccounts, hbaseCoins, hbaseChain⟩ := laws.ledger.from_accounts hbase
  have hblock : block = genesis.block := by
    have hlook := congrArg (fun c : Chain => c.blocks[0]?) (hchain.symm.trans h.chain_eq)
    simpa [Chain.push, hzero, h.height_eq] using hlook
  subst hblock
  have hreplay : Replays paqus node.genesisAccounts [genesis] { base with chain } :=
    .genesis (by rw [h.accounts_eq]; exact hbase) (by rw [hbaseChain]; exact hinsert)
  have honly : ∀ {key path}, Branch paqus node.forkChoice key path → path = [genesis] := by
    intro key path hp
    obtain ⟨n, _, _, hn⟩ := hp.head
    obtain ⟨rfl, _⟩ := h.known.mp hn
    exact hp.unique hbranch
  refine ⟨⟨⟨?_, ?_, ?_⟩, ?_, ?_, ?_, ?_, ⟨genesis, hself⟩, fun hn _ => (h.known.mp hn).1, ?_⟩,
    paqus.rules.genesisHash, [genesis], ?_, hbranch, _, hreplay, ?_⟩
  · intro key n hn
    obtain ⟨rfl, rfl⟩ := h.known.mp hn
    exact hhash
  · intro key n hn _
    obtain ⟨rfl, rfl⟩ := h.known.mp hn
    exact hheight
  · intro key n p hn hp
    obtain ⟨rfl, rfl⟩ := h.known.mp hn
    rw [hroot] at hp
    cases hp
  · intro key n hn
    obtain ⟨rfl, rfl⟩ := h.known.mp hn
    exact h.block_hash
  · intro key n hn
    obtain ⟨rfl, rfl⟩ := h.known.mp hn
    exact hheight.trans h.height_eq.symm
  · intro key n hn
    obtain ⟨rfl, rfl⟩ := h.known.mp hn
    rw [h.genesis_eq]
    rfl
  · intro key n p hn hz _
    obtain ⟨rfl, rfl⟩ := h.known.mp hn
    exact absurd hheight hz
  · intro key path hp
    rw [honly hp]
    exact ⟨_, hreplay⟩
  · simp [Ledger.tipHash, h.chain_eq, Chain.push]
  · obtain ⟨hash'', hh, hchain'⟩ := laws.ledger.insert_chain hinsert
    rw [h.block_hash] at hh
    cases hh
    exact ⟨hbaseAccounts, by rw [hqcash]; exact hbaseCoins, by rw [h.chain_eq, hchain']⟩

end Init

end PaqusNetwork
