import PaqusNetwork.Cache.Mirror
import PaqusNetwork.Node.Reconfirmed

namespace PaqusNetwork

open Effect

variable {F : Type} {paqus : Paqus F} {ranking : Ranking} (laws : ProtocolLaws paqus ranking) {ledger : Ledger}
  {block : Block}

section Branch

variable {accounts : BTreeMap Address Account} {forkChoice : F} {tip : BlockHash} {path : List ForkNode}
  (bookkeeping : AccountLaws paqus) (hkeyed : Keyed accounts)

include laws bookkeeping hkeyed

theorem Replays.keyed (h : Replays paqus accounts path ledger) : Keyed ledger.accounts := by
  induction h with
  | genesis started _ =>
    obtain ⟨haccounts, _⟩ := laws.ledger.from_accounts started
    rw [haccounts]
    exact hkeyed
  | block _ applied ih =>
    rw [laws.ledger.apply_eq] at applied
    exact bookkeeping.keyed applied ih

theorem OnBranch.keyed (h : OnBranch paqus accounts forkChoice ledger tip path) : Keyed ledger.accounts := by
  obtain ⟨rebuilt, hreplay, hsame⟩ := h.replay
  rw [← hsame.accounts]
  exact hreplay.keyed laws bookkeeping hkeyed

theorem OnBranch.fromLedger_mirrors (hg : GraphSound paqus ranking accounts forkChoice)
    (h : OnBranch paqus accounts forkChoice ledger tip path) {cache : CoreCache}
    (hcache : CoreCache.fromLedger paqus ledger = .ok cache) : cache.Mirrors paqus ledger := by
  refine CoreCache.fromLedger_mirrors (h.keyed laws bookkeeping hkeyed) ?_ hcache
  intro left right height height' hash hleft hright hlefthash hrighthash
  obtain ⟨node, _, hnode, rfl⟩ := h.get_block laws hg hleft hlefthash
  obtain ⟨node', _, hnode', rfl⟩ := h.get_block laws hg hright hrighthash
  cases hnode.symm.trans hnode'
  rfl

end Branch

/-- The addresses whose accounts the extension of the tip copies into the cache. -/
def patchedAddresses (paqus : Paqus F) (block : Block) : List Address :=
  block.transactions.flatMap cachedAddresses ++ [paqus.rules.minerAddress block]

section Extend

variable (bookkeeping : AccountLaws paqus) {core : Core F} {hash : BlockHash} {forkChoice : F}

include laws bookkeeping

theorem Admits.extended_mirrors (hs : core.Sound paqus ranking) (hkeyed : Keyed core.genesisAccounts)
    (h : Admits paqus core block (some ledger) hash forkChoice)
    (hext : extendsActiveTip core.ledger block = true)
    (hpatched : ∀ address ∈ blockAddresses paqus block, address ∈ patchedAddresses paqus block)
    {cache inserted : CoreCache} (hcache : cache.Mirrors paqus core.ledger)
    (hinserted : cache.insertBlock paqus block = .ok inserted) :
    (cacheBlockAccounts paqus ledger block inserted).Mirrors paqus ledger := by
  obtain ⟨parent, hgrown⟩ := h.grown laws hs
  obtain ⟨path, hold, hnew, _⟩ := h.extended laws hs hext
  have hgraph := h.graphSound laws hs
  have hexec := h.executed hext
  have hkeyed' := hnew.keyed laws bookkeeping hkeyed
  obtain ⟨hash', hhash, rfl⟩ := CoreCache.insertBlock_eq_ok.mp hinserted
  cases hgrown.hash_eq.symm.trans hhash
  obtain ⟨hblocks, htipHeight, htipHash⟩ := CoreCache.foldl_cacheAccount_rest ledger
    (patchedAddresses paqus block) { cache with
      blocksByHeight := cache.blocksByHeight.insert block.height block
      blocksByHash := cache.blocksByHash.insert hash block
      tipHeight := some block.height
      tipHash := some hash }
  refine ⟨fun address => ?_, fun key other => ?_, ?_, ?_⟩
  · refine (CoreCache.foldl_cacheAccount_accounts hkeyed' _ _ address).trans ?_
    split
    · rfl
    next hnot =>
      refine (hcache.accounts address).trans ?_
      by_cases hin : address ∈ patchedAddresses paqus block
      · have hnone : ledger.accounts[address]? = none := by
          cases hfound : ledger.accounts[address]? with
          | none => rfl
          | some account => exact absurd ⟨hin, by rw [hfound]; rfl⟩ hnot
        rw [hnone, bookkeeping.kept hexec hnone]
      · exact (bookkeeping.untouched hexec fun htouched => hin (hpatched address htouched)).symm
  · show (CoreCache.blocksByHash _)[key]? = some other ↔ _
    unfold cacheBlockAccounts
    rw [show block.transactions.flatMap cachedAddresses ++ [paqus.rules.minerAddress block] =
      patchedAddresses paqus block from rfl, hblocks, OrderedMap.getElem?_insert]
    by_cases hkey : hash = key
    · subst hkey
      rw [if_pos rfl, Option.some.injEq]
      refine ⟨?_, fun hother => ?_⟩
      · rintro rfl
        exact ⟨hhash, _, (hnew.block_iff laws hgraph).mpr ⟨_, List.mem_cons_self .., rfl, rfl⟩⟩
      · obtain ⟨hotherhash, height, hfound⟩ := hother
        obtain ⟨node, _, hnode, rfl⟩ := hnew.get_block laws hgraph hfound hotherhash
        cases hgrown.get_new.symm.trans hnode
        rfl
    · rw [if_neg hkey]
      refine (hcache.blocks key other).trans (and_congr_right fun hother => ?_)
      constructor
      · rintro ⟨height, hfound⟩
        obtain ⟨node, hnode, hheight, rfl⟩ := (hold.block_iff laws hs.graph).mp hfound
        exact ⟨height, (hnew.block_iff laws hgraph).mpr ⟨node, List.mem_cons_of_mem _ hnode, hheight, rfl⟩⟩
      · rintro ⟨height, hfound⟩
        obtain ⟨node, hnode, hheight, rfl⟩ := (hnew.block_iff laws hgraph).mp hfound
        rcases List.mem_cons.mp hnode with rfl | hrest
        · cases hhash.symm.trans hother
          exact absurd rfl hkey
        · exact ⟨height, (hold.block_iff laws hs.graph).mpr ⟨node, hrest, hheight, rfl⟩⟩
  · exact htipHeight.trans (hnew.tipHeight laws hgraph).symm
  · exact htipHash.trans hnew.tipHash.symm

end Extend

def Mirrored (paqus : Paqus F) (main : Main F) : Prop := main.cache.Mirrors paqus main.ledger

theorem stable_mirrored : Stable paqus fun node : Node F => Mirrored paqus node.toMain :=
  ⟨fun _ h => h, fun _ h => h, fun _ h => h⟩

/-- A block that extends the tip touches only accounts that are copied into the cache, and the database
answers. -/
def CachePatched (paqus : Paqus F) (main : Main F) (block : Block) : Prop :=
  ∀ staged hash forkChoice, Admits paqus main.toCore block staged hash forkChoice →
    BestAfter paqus hash forkChoice → extendsActiveTip main.ledger block = true →
      (∀ address ∈ blockAddresses paqus block, address ∈ patchedAddresses paqus block) ∧
        main.storage.QuietFor (block.transactions.length * (main.storage.rollbackIssues.size + 1))

instance CachePatched.decidable (paqus : Paqus F) (main : Main F) (block : Block) :
    Decidable (CachePatched paqus main block) :=
  forallAdmits.decidable paqus main.toCore block fun _ _ => _

variable {node : Node F}

theorem recordSwitch_mirrored {oldBlocks : List Block} {plan : ReorgPlan}
    {cache : CoreCache} (hcache : CoreCache.fromLedger paqus ledger = .ok cache)
    (hmirrors : cache.Mirrors paqus ledger) (hnode : node.ledger = ledger) :
    Mirrored paqus (state (recordSwitch paqus oldBlocks plan ledger node)).toMain := by
  have hstable : Stable paqus fun node : Node F => Mirrored paqus node.toMain := stable_mirrored
  have hcached : Mirrored paqus (Node.toMain { node with cache }) := by
    show cache.Mirrors paqus node.ledger
    rwa [hnode]
  unfold recordSwitch
  rw [hcache, liftExcept_ok, pure_bind, modify_bind]
  refine Keeps.bind (hstable.onStorage_keeps fun _ => .saveLedger _) (fun _ => ?_) _ hcached
  refine Keeps.get.bind fun node => ?_
  refine (hstable.recordDisconnected_keeps _ _ _).bind fun _ => ?_
  refine Keeps.bind (Yields.modify fun _ h => h) fun _ => ?_
  exact Yields.discard (pruneFinalizedForks_keeps paqus fun _ _ h => h)

section Run

variable (encoding : EncodingLaws paqus) (bookkeeping : AccountLaws paqus)

include encoding in
theorem extendActiveTip_mirrored
    (hblock : Storable paqus block) (hgenesis : block.isGenesis = false) (hhealthy : Healthy paqus node.toMain)
    (hquiet : node.storage.QuietFor (block.transactions.length * (node.storage.rollbackIssues.size + 1)))
    (hmirrors : ∀ inserted, node.cache.insertBlock paqus block = .ok inserted →
      (cacheBlockAccounts paqus ledger block inserted).Mirrors paqus ledger) :
    Mirrored paqus (state (extendActiveTip paqus block (some ledger) node)).toMain := by
  obtain ⟨hash, hashes, mempool, storage, hhash, _, _, hextend⟩ :=
    @extendActiveTip_marked F paqus block encoding ledger node hblock hgenesis hhealthy hquiet
  obtain ⟨inserted, hinserted⟩ := CoreCache.insertBlock_ok paqus node.cache hhash
  have hstable : Stable paqus fun node : Node F => Mirrored paqus node.toMain := stable_mirrored
  rw [hextend]
  unfold recordExtension
  rw [get_bind]
  simp only [hinserted, liftExcept_ok]
  rw [pure_bind, modify_bind]
  refine Keeps.bind (hstable.onStorage_keeps fun _ => .saveLedger _) (fun _ => ?_) _ (hmirrors inserted hinserted)
  exact Yields.discard (pruneFinalizedForks_keeps paqus fun _ _ h => h)

include laws encoding bookkeeping

theorem connectBlock_mirrored (hs : node.toCore.Sound paqus ranking)
    (hkeyed : Keyed node.genesisAccounts) (hhealthy : Healthy paqus node.toMain)
    (hmirrored : Mirrored paqus node.toMain) (hallowed : CachePatched paqus node.toMain block) :
    Mirrored paqus (state (connectBlock paqus block node)).toMain := by
  have hsettles : Settles paqus block node _ := connectBlock_settles block node
  generalize state (connectBlock paqus block node) = next at hsettles ⊢
  cases hsettles with
  | refused => exact hmirrored
  | unplanned admitted => exact hmirrored
  | stored admitted step _ => exact hmirrored
  | extended admitted best onTip =>
    obtain ⟨hpatched, hquiet⟩ := hallowed _ _ _ admitted best onTip
    exact extendActiveTip_mirrored encoding (admitted.storable laws encoding hs)
      (admitted.not_genesis laws hs) ⟨hhealthy.issues, hhealthy.pool⟩ hquiet fun inserted hinserted =>
        admitted.extended_mirrors laws bookkeeping hs hkeyed onTip hpatched hmirrored hinserted
  | switched admitted best offTip planned saved rebuilt =>
    obtain ⟨path, _, hon⟩ := admitted.rebuilt_onBranch laws hs best planned rebuilt
    have hgraph := admitted.graphSound laws hs
    obtain ⟨cache, hcache⟩ := hon.fromLedger_ok laws hgraph
    exact recordSwitch_mirrored hcache (hon.fromLedger_mirrors laws bookkeeping hkeyed hgraph hcache) rfl

/-- In every run that meets the condition the cache mirrors the active ledger. -/
theorem Run.mirrored {faults : Nat → Option StorageError} {consensus : Consensus}
    {clock : Nat → Nat} {config : MempoolConfig} {start node : Node F}
    (hstart : initFresh paqus (Storage.empty faults) consensus clock = .ok start)
    (h : Run paqus { start with mempool := Mempool.withConfig config } node)
    (hallowed : ∀ connection ∈ connectionsSince start node, CachePatched paqus connection.1 connection.2) :
    Mirrored paqus node.toMain := by
  obtain ⟨genesis, hfresh⟩ := initFresh_fresh laws hstart
  let I : Main F → Prop := fun main => (main.toCore.Sound paqus ranking ∧ Keyed main.genesisAccounts) ∧
    Healthy paqus main ∧ Mirrored paqus main
  have haside : Aside paqus fun node : Node F => Healthy paqus node.toMain := aside_healthy
  have hstable : Stable paqus fun node : Node F => I node.toMain :=
    ⟨fun step h => ⟨h.1, haside.storage step h.2.1, h.2.2⟩,
      fun step h => ⟨h.1, haside.mempool step h.2.1, h.2.2⟩, fun _ h => h⟩
  have hkeyed : Keyed start.genesisAccounts := by
    rw [hfresh.accounts_eq]
    exact bookkeeping.genesis hfresh.ledger_eq
  have hinv : I node.toMain := by
    refine h.keeps_calls hstable.mempool hstable.retryRollbackIssue_keeps ?_ ?_ hallowed
    · intro block node hI hok
      have hcore := applyKnownParentBlock_core paqus block node
      rw [applyKnownParentBlock_eq] at hcore ⊢
      refine ⟨⟨hI.1.1.step laws hcore, ?_⟩, haside.connectBlock_keeps block _ hI.2.1, ?_⟩
      · rw [hcore.genesisAccounts_eq laws hI.1.1]
        exact hI.1.2
      · exact connectBlock_mirrored laws encoding bookkeeping hI.1.1 hI.1.2 hI.2.1 hI.2.2 hok
    · obtain ⟨tip, path, hon⟩ := (hfresh.sound laws).active
      refine ⟨⟨hfresh.sound laws, hkeyed⟩, hfresh.healthy config, ?_⟩
      exact hon.fromLedger_mirrors laws bookkeeping hkeyed (hfresh.sound laws).graph (initFresh_cache hstart)
  exact hinv.2.2

end Run

namespace Reference

theorem account_laws (depth : Nat) : AccountLaws (protocol depth) where
  untouched h hout := (Books.afterBlock_ok depth (executeBlock_books h)).1.untouched _ hout
  kept {ledger block next address} h hnone := by
    by_contra hfound
    obtain ⟨account, haccount⟩ := Option.ne_none_iff_exists'.mp hfound
    obtain ⟨_, hkept, _⟩ := (Books.afterBlock_ok depth (executeBlock_books h)).1.advances _ _ haccount
    cases hnone.symm.trans hkept
  keyed h hkeyed := (Books.afterBlock_ok depth (executeBlock_books h)).1.keyed hkeyed
  genesis h := by
    simp only [protocol, ledgerApi] at h
    have hledger := mapError_eq_ok.mp h
    refine (Books.afterBlock_ok depth (executeBlock_books hledger)).1.keyed fun address account hfound => ?_
    simp [booksOf, emptyLedger] at hfound

def withdrawal (hash signer : Nat) (lastState : Hash) (coin : QCashCoinId) : SignedProtocolTransaction :=
  .qcash ⟨signer, lastState, .withdraw 10 [coin], [hash]⟩

def patchedCalls : List NodeCall :=
  [.applyBlock (Tip.genesis.next 111 1 [transfer 501 1 0 4 30, withdrawal 502 4 0 77]).block,
    .applyBlock (Tip.genesis.next 121 100 [transfer 503 3 0 4 20]).block,
    .applyBlock ((Tip.genesis.next 121 100 [transfer 503 3 0 4 20]).next 122 1 [transfer 501 1 0 4 30]).block]

theorem mirrored_patched :
    ∃ start node, freshNode 2 = .ok start ∧
      node = afterCalls (protocol 2) { start with mempool := Mempool.withConfig .default } patchedCalls ∧
      node.reorgsTotal = 1 ∧ node.ledger.tipHeight = some 2 ∧ Mirrored (protocol 2) node.toMain := by
  obtain ⟨start, hstart⟩ : ∃ start, freshNode 2 = .ok start := exists_ok (by decide +kernel)
  exact ⟨start, _, hstart, rfl, of_ok hstart (by decide +kernel), of_ok hstart (by decide +kernel),
    Run.mirrored (protocol_laws 2) (encoding_laws 2) (account_laws 2) hstart (Run.calls _ .start _)
      (of_ok hstart (by decide +kernel))⟩

/-- The account of a withdrawal's signer is not copied: the cache keeps the state before the block. -/
theorem cache_misses_withdrawal :
    ∃ node next, Reachable (protocol 2) node ∧
      applyBlock (protocol 2) (Tip.genesis.next 111 1 [withdrawal 502 1 0 77]).block node = .ok () next ∧
      ¬Mirrored (protocol 2) next.toMain := by
  obtain ⟨node, hnode⟩ : ∃ node, sampleRun 2 [] = .ok node := exists_ok (by decide +kernel)
  exact ⟨node, _, sampleRun_reachable hnode, ok_of_outcome (of_ok hnode (by decide +kernel)),
    fun h => absurd (h.accounts 1) (of_ok hnode (by decide +kernel))⟩

end Reference

end PaqusNetwork
