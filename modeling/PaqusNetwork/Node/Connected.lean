import PaqusNetwork.Mempool.Insert
import PaqusNetwork.Node.Progress

namespace PaqusNetwork

open Effect Numeric Std

variable {F : Type} {paqus : Paqus F} {ranking : Ranking} {core : Core F} {ledger : Ledger} {forkChoice : F}
  {accounts : BTreeMap Address Account} {hash tip : BlockHash} {height : Nat} {path : List ForkNode}
  {block : Block}

theorem removeConfirmed_returns (encoding : EncodingLaws paqus) (hblock : Storable paqus block) :
    Returns (Ready paqus core) (fun _ => Ready paqus core)
      (onMempool (Mempool.removeConfirmed paqus block) : NodeM F Unit) := by
  intro node hnode
  obtain ⟨next, hrun, _⟩ := Mempool.removeConfirmed_ok hnode.pool.encoded fun transaction ht =>
    encoding.transaction_hash hblock.structural ht
  have hready := (stable_ready core).onMempool_keeps (fun _ _ => .confirmed block) node hnode
  have hresult : (onMempool (Mempool.removeConfirmed paqus block) : NodeM F Unit) node =
      .ok () { node with mempool := next } := by
    simp only [onMempool, focus, hrun]
  rw [hresult] at hready
  exact ⟨(), _, hresult, hready⟩

section Ledger

theorem storedHash_ok (encoding : EncodingLaws paqus) (h : Storable paqus block) :
    (∃ hash, Storage.storedHash paqus block = .ok hash) ∧ block.transactions.length ≤ u32Max + 1 := by
  obtain ⟨bytes, hbytes⟩ := encoding.block_bytes h.structural
  obtain ⟨hash, hhash⟩ := h.hashed
  have hcount := encoding.transaction_count h.structural
  refine ⟨⟨hash, ?_⟩, by omega⟩
  simp only [Storage.storedHash, Storage.validateBlockForStorage, h.structural, if_true, hbytes, hhash, mapError_ok]
  rfl

theorem storedGenesisAccounts_ok (hledger : LedgerStorable paqus ledger)
    (hheight : ∀ {height block}, ledger.block height = some block → block.height = height) :
    ∃ accounts, Storage.storedGenesisAccounts paqus ledger = .ok accounts := by
  unfold Storage.storedGenesisAccounts
  cases hgenesis : ledger.block 0 with
  | none => exact ⟨none, rfl⟩
  | some genesis =>
    have hmem : genesis ∈ ledger.storedBlocks :=
      List.mem_map.mpr ⟨(0, genesis), ExtTreeMap.mem_toList_iff_getElem?_eq_some.mpr hgenesis, rfl⟩
    have hzero := hheight hgenesis
    obtain ⟨base, hbase⟩ := (hledger genesis hmem).genesis hzero
    simp only [Storage.genesisAccountsFromLedger, hzero, ne_eq, not_true_eq_false, if_false, hbase]
    exact ⟨_, rfl⟩

theorem saveLedger_returns (encoding : EncodingLaws paqus) (hledger : LedgerStorable paqus ledger)
    (hheight : ∀ {height block}, ledger.block height = some block → block.height = height) :
    Returns (Ready paqus core) (fun _ => Ready paqus core)
      (onStorage (Storage.saveLedger paqus ledger) : NodeM F Unit) := by
  obtain ⟨accounts, haccounts⟩ := storedGenesisAccounts_ok hledger hheight
  refine (onStorage_returns (P := fun _ => True) (fun _ => .saveLedger ledger) fun h => ?_).weaken fun _ _ h => h.2
  obtain ⟨next, hnext, _⟩ := Storage.saveLedger_answered haccounts
    (fun block hb => storedHash_ok encoding (hledger block hb)) h.faultless.next
    (h.faultless _ (Nat.le_add_right _ _))
  exact ⟨(), next, hnext, trivial⟩

variable (laws : ProtocolLaws paqus ranking)

include laws

theorem OnBranch.get_block (hg : GraphSound paqus ranking accounts forkChoice)
    (h : OnBranch paqus accounts forkChoice ledger tip path)
    (hblock : ledger.block height = some block) (hhash : paqus.blockHash block = .ok hash) :
    ∃ node ∈ path, paqus.fork.get forkChoice hash = some node ∧ node.block = block := by
  obtain ⟨node, hnode, _, rfl⟩ := (h.block_iff laws hg).mp hblock
  cases (hg.path_hash h.branch node hnode).symm.trans hhash
  exact ⟨node, hnode, hg.mem_path h.branch hnode, rfl⟩

theorem OnBranch.fromLedger_ok (hg : GraphSound paqus ranking accounts forkChoice)
    (h : OnBranch paqus accounts forkChoice ledger tip path) :
    ∃ cache, CoreCache.fromLedger paqus ledger = .ok cache := by
  refine CoreCache.fromLedger_ok paqus fun block hblock => ?_
  obtain ⟨entry, hentry, rfl⟩ := List.mem_map.mp hblock
  have hfound := ExtTreeMap.mem_toList_iff_getElem?_eq_some.mp hentry
  obtain ⟨node, hnode, _, hsame⟩ := (h.block_iff laws hg).mp hfound
  rw [← hsame]
  exact ⟨node.hash, hg.path_hash h.branch node hnode⟩

theorem Core.Sound.ledger_block (hs : core.Sound paqus ranking) (h : core.ledger.block height = some block) :
    block.height = height ∧ ∃ hash node, paqus.fork.get core.forkChoice hash = some node ∧
      node.block = block := by
  obtain ⟨tip, path, hactive⟩ := hs.active
  obtain ⟨node, hmem, hheight, hblock⟩ := (hactive.block_iff laws hs.graph).mp h
  have hknown := hs.graph.mem_path hactive.branch hmem
  have hsame := hs.graph.block_height hknown
  exact ⟨by rw [← hblock, ← hsame, hheight], _, node, hknown, hblock⟩

theorem Core.Sound.ledgerStorable (hs : core.Sound paqus ranking)
    (hg : GraphStorable paqus core.forkChoice) : LedgerStorable paqus core.ledger := by
  intro block hblock
  obtain ⟨⟨height, _⟩, hmem, rfl⟩ := List.mem_map.mp hblock
  obtain ⟨_, hash, node, hnode, hsame⟩ := hs.ledger_block laws (ExtTreeMap.mem_toList_iff_getElem?_eq_some.mp hmem)
  rw [← hsame]
  exact hg hash node hnode

theorem pruneFinalizedForks_ok {node : Node F} (hs : node.toCore.Sound paqus ranking) :
    ∃ count next, pruneFinalizedForks paqus node = .ok count next := by
  unfold pruneFinalizedForks
  rw [get_bind]
  cases htip : node.ledger.tipHeight with
  | none => exact ⟨0, node, rfl⟩
  | some tipHeight =>
    cases hfinal : node.ledger.block (tipHeight - paqus.rules.finalityDepth) with
    | none =>
      simp only [hfinal]
      exact ⟨0, node, rfl⟩
    | some final =>
      obtain ⟨_, hash, found, hfound, hsame⟩ := hs.ledger_block laws hfinal
      have hhash := hs.graph.block_hash hfound
      rw [hsame] at hhash
      obtain ⟨count, forkChoice, hprune⟩ := laws.fork.prune_known hfound
      simp only [hfinal, hhash, liftExcept_ok]
      rw [pure_bind, hprune, liftExcept_ok]
      exact ⟨_, _, rfl⟩

theorem pruneFinalizedForks_returns (hs : core.Sound paqus ranking) :
    Returns (Ready paqus core) (fun _ _ => True) (pruneFinalizedForks paqus) := by
  intro node hnode
  obtain ⟨count, next, hrun⟩ := pruneFinalizedForks_ok laws (hnode.core_eq ▸ hs)
  exact ⟨count, next, hrun, trivial⟩

end Ledger

section Connect

variable (laws : ProtocolLaws paqus ranking) (encoding : EncodingLaws paqus) {node : Node F}

include laws encoding

theorem saveSound_returns (hs : core.Sound paqus ranking) (hg : GraphStorable paqus core.forkChoice) :
    Returns (Ready paqus core) (fun _ => Ready paqus core)
      (onStorage (Storage.saveLedger paqus core.ledger) : NodeM F Unit) :=
  saveLedger_returns encoding (hs.ledgerStorable laws hg) fun h => (hs.ledger_block laws h).1

theorem extendActiveTip_ok (hs : Core.Sound paqus ranking { core with ledger })
    (hg : GraphStorable paqus core.forkChoice)
    (hblock : Storable paqus block) (hgenesis : block.isGenesis = false) (hnode : Ready paqus core node) :
    ∃ next, extendActiveTip paqus block (some ledger) node = .ok () next := by
  obtain ⟨hash, hhash⟩ := hblock.hashed
  have hrest : Returns (Ready paqus { core with ledger }) (fun _ _ => True)
      (finishExtension paqus block ledger) := by
    rw [finishExtension, hgenesis, runIf_false]
    refine Returns.bind (Q := fun _ => Ready paqus { core with ledger }) (Returns.pure fun _ h => h) fun _ => ?_
    refine (removeConfirmed_returns encoding hblock).bind fun _ => ?_
    refine (markRollbackIssuesReconfirmed_returns encoding hblock).bind fun _ => ?_
    intro node hnode
    obtain ⟨cache, hcache⟩ := CoreCache.insertBlock_ok paqus node.cache hhash
    rw [recordExtension, get_bind, hcache, liftExcept_ok, pure_bind, modify_bind]
    refine Returns.bind (saveSound_returns laws encoding hs hg)
      (fun _ => Returns.discard (pruneFinalizedForks_returns laws hs)) _ ?_
    exact ⟨hnode.core_eq, hnode.storage, hnode.pool⟩
  rw [extendActiveTip_some]
  obtain ⟨_, next, hnext, _⟩ := hrest { node with ledger, snapshotCache := none }
    ⟨by rw [← hnode.core_eq], hnode.storage, hnode.pool⟩
  exact ⟨next, hnext⟩

theorem reorgToBestTip_ok (hs : core.Sound paqus ranking) (hg : GraphStorable paqus core.forkChoice) {best : ForkNode}
    (hbest : paqus.fork.bestTip core.forkChoice = some best)
    (hcross : ∀ ancestor, core.commonAncestor paqus core.ledger.tipHash best.hash = some ancestor →
      paqus.fork.reorgCrossesFinalityBoundary core.ledger core.forkChoice ancestor = false)
    (hnode : Ready paqus core node) : ∃ next, reorgToBestTip paqus node = .ok () next := by
  obtain ⟨plan, hplan⟩ := planReorg_ok laws encoding hs hbest hcross
  have htip : plan.bestTip = best.hash := by
    have h := Core.planReorg_bestTip hplan
    rw [hbest] at h
    exact (Option.some.inj h).symm
  obtain ⟨path, hpath⟩ := hs.graph.rooted.exists_path (laws.fork.best_known hbest)
  obtain ⟨ledger, hreplay⟩ := hs.graph.replays hpath
  have hledger : core.ledgerForBranchTip paqus plan.bestTip = .ok ledger := by
    rw [htip]
    exact (ledgerForBranchTip_eq_ok laws.fork hpath).mpr hreplay
  have hon := rebuilt_onBranch laws core hs.graph (htip ▸ hpath) hledger
  have hs' : Core.Sound paqus ranking { core with ledger } := ⟨hs.graph, _, _, hon⟩
  have hledgers := hs'.ledgerStorable laws hg
  obtain ⟨cache, hcache⟩ := CoreCache.fromLedger_ok paqus fun block hb => (hledgers block hb).hashed
  obtain ⟨storage, hsaved⟩ := saveRollbackProofContext_ok hplan hnode.storage.faultless.next
  have hworking : storage.Working paqus := by
    have hstep := Storage.Step.working (.saveRollbackProofContext plan.proofContext) hnode.storage
    rwa [hsaved] at hstep
  have hold := hs.ledgerStorable laws hg
  rw [← hnode.core_eq] at hplan hold hledger
  rw [reorgToBestTip_of_ledger paqus hplan hsaved hledger]
  have hrest : Returns (Ready paqus { core with ledger }) (fun _ _ => True)
      (recordSwitch paqus node.ledger.storedBlocks plan ledger) := by
    intro other hother
    rw [recordSwitch, hcache, liftExcept_ok, pure_bind, modify_bind]
    refine (saveSound_returns laws encoding hs' hg).bind (fun _ => ?_) _ ⟨hother.core_eq, hother.storage, hother.pool⟩
    intro stored hstored
    rw [get_bind]
    refine (recordDisconnected_returns encoding hledgers _ _ hold).bind (fun _ => ?_) stored hstored
    refine Returns.bind (Q := fun _ => Ready paqus { core with ledger })
      (Returns.modify fun _ h => ⟨h.core_eq, h.storage, h.pool⟩) fun _ => ?_
    exact Returns.discard (pruneFinalizedForks_returns laws hs')
  obtain ⟨_, next, hnext, _⟩ := hrest { node with storage, ledger, snapshotCache := none }
    ⟨by rw [← hnode.core_eq], hworking, hnode.pool⟩
  exact ⟨next, hnext⟩

theorem connectBlock_ok {staged : Option Ledger} (hs : node.toCore.Sound paqus ranking)
    (hg : GraphStorable paqus node.forkChoice)
    (hstorage : node.storage.Working paqus) (hpool : node.mempool.Built paqus)
    (hadm : Admits paqus node.toCore block staged hash forkChoice)
    (hcross : BestAfter paqus hash forkChoice → extendsActiveTip node.ledger block = false →
      ∀ ancestor ∈ Core.commonAncestor paqus { node.toCore with forkChoice } node.ledger.tipHash hash,
        paqus.fork.reorgCrossesFinalityBoundary node.ledger forkChoice ancestor = false) :
    ∃ next, connectBlock paqus block node = .ok () next := by
  have hblock := hadm.storable laws encoding hs
  have hs' : Core.Sound paqus ranking { node.toCore with forkChoice } := hs.inserted laws hadm
  have hg' : GraphStorable paqus forkChoice := hg.inserted laws encoding hs hadm
  let grown : Node F := { node with forkChoice }
  have hready : Ready paqus { node.toCore with forkChoice } grown := ⟨rfl, hstorage, hpool⟩
  rw [connectBlock_of_admits hadm]
  by_cases hbest : BestAfter paqus hash forkChoice
  · cases hext : extendsActiveTip node.ledger block with
    | true =>
      have hgenesis := hadm.not_genesis laws hs
      obtain ⟨ledger, rfl⟩ := hadm.staged_some hext
      obtain ⟨_, _, _, hextended⟩ := hadm.extended laws hs hext
      obtain ⟨next, hnext⟩ := extendActiveTip_ok laws encoding hextended hg' hblock hgenesis hready
      have hsettle : settleInserted paqus block hash (some ledger) grown =
          extendActiveTip paqus block (some ledger) grown := settleInserted_extends hbest hext
      exact ⟨next, hsettle.trans hnext⟩
    | false =>
      obtain ⟨best, hbest', hhash⟩ := Option.map_eq_some_iff.mp hbest
      subst hhash
      obtain ⟨next, hnext⟩ := reorgToBestTip_ok laws encoding hs' hg' hbest' (hcross hbest hext) hready
      have hsettle : settleInserted paqus block best.hash staged grown = reorgToBestTip paqus grown :=
        settleInserted_reorgs hbest hext
      exact ⟨next, hsettle.trans hnext⟩
  · obtain ⟨⟨stored, hstored⟩, _⟩ := storedHash_ok encoding hblock
    obtain ⟨next, hnext⟩ := Storage.saveSideBlock_ok hstored hstorage
    have hsettle : settleInserted paqus block hash staged grown =
        (onStorage (Storage.saveSideBlock paqus block) : NodeM F Unit) grown := settleInserted_side hbest
    refine ⟨{ grown with storage := next }, hsettle.trans ?_⟩
    simp only [onStorage, focus, grown, hnext]

end Connect

variable (paqus : Paqus F)

/-- The states that one block can leave. -/
inductive Settles (block : Block) (node : Node F) : Node F → Prop
  | refused : Settles block node node
  | unplanned {staged : Option Ledger} {hash : BlockHash} {forkChoice : F}
      (admitted : Admits paqus node.toCore block staged hash forkChoice) :
      Settles block node { node with forkChoice }
  | stored {staged : Option Ledger} {hash : BlockHash} {forkChoice : F} {storage : Storage}
      (admitted : Admits paqus node.toCore block staged hash forkChoice)
      (step : Storage.Step paqus node.storage storage)
      (issues : storage.rollbackIssues = node.storage.rollbackIssues) :
      Settles block node { node with forkChoice, storage }
  | extended {ledger : Ledger} {hash : BlockHash} {forkChoice : F}
      (admitted : Admits paqus node.toCore block (some ledger) hash forkChoice)
      (best : BestAfter paqus hash forkChoice)
      (onTip : extendsActiveTip node.ledger block = true) :
      Settles block node (state (extendActiveTip paqus block (some ledger) { node with forkChoice }))
  | switched {staged : Option Ledger} {ledger : Ledger} {hash : BlockHash} {forkChoice : F}
      {plan : ReorgPlan} {storage : Storage}
      (admitted : Admits paqus node.toCore block staged hash forkChoice)
      (best : BestAfter paqus hash forkChoice)
      (offTip : extendsActiveTip node.ledger block = false)
      (planned : Core.planReorg paqus { node.toCore with forkChoice } = .ok plan)
      (saved : Storage.saveRollbackProofContext paqus plan.proofContext node.storage = .ok () storage)
      (rebuilt : Core.ledgerForBranchTip paqus { node.toCore with forkChoice } plan.bestTip = .ok ledger) :
      Settles block node (state (recordSwitch paqus node.ledger.storedBlocks
        plan ledger { node with forkChoice, storage, ledger, snapshotCache := none }))

variable {paqus} {node : Node F} {staged : Option Ledger} {hash : BlockHash}

theorem reorgToBestTip_settles (hadm : Admits paqus node.toCore block staged hash forkChoice)
    (hbest : BestAfter paqus hash forkChoice) (hoff : extendsActiveTip node.ledger block = false) :
    Settles paqus block node (state (reorgToBestTip paqus { node with forkChoice })) := by
  have hcase := reorgToBestTip_case paqus { node with forkChoice }
  generalize reorgToBestTip paqus { node with forkChoice } = result at hcase ⊢
  cases hcase with
  | unplanned error => exact .unplanned hadm
  | stored plan error =>
    exact .stored hadm (.saveRollbackProofContext plan.proofContext)
      ((Storage.saveRollbackProofContext_issueFree plan.proofContext).leaves node.storage)
  | switched planned saved rebuilt => exact .switched hadm hbest hoff planned saved rebuilt

/-- Every outcome of `apply_known_parent_block` settles the block in one of these ways. -/
theorem connectBlock_settles (block : Block) (node : Node F) :
    Settles paqus block node (state (connectBlock paqus block node)) := by
  by_cases hadmitted : ∃ staged hash forkChoice, Admits paqus node.toCore block staged hash forkChoice
  case neg =>
    obtain ⟨error, hrefused⟩ := connectBlock_refused hadmitted
    rw [hrefused]
    exact .refused
  obtain ⟨staged, hash, forkChoice, hadm⟩ := hadmitted
  let grown : Node F := { node with forkChoice }
  have hconnect : connectBlock paqus block node = settleInserted paqus block hash staged grown :=
    connectBlock_of_admits hadm
  rw [hconnect]
  by_cases hbest : BestAfter paqus hash grown.forkChoice
  case neg =>
    rw [settleInserted_side hbest]
    unfold onStorage
    rw [state_focus]
    exact .stored hadm (.saveSideBlock block) ((Storage.saveSideBlock_issueFree block).leaves node.storage)
  cases hext : extendsActiveTip grown.ledger block with
  | true =>
    rw [settleInserted_extends hbest hext]
    obtain ⟨ledger, rfl⟩ := hadm.staged_some hext
    exact .extended hadm hbest hext
  | false =>
    rw [settleInserted_reorgs hbest hext]
    exact reorgToBestTip_settles hadm hbest hext

variable {spent : Ledger → SignedProtocolTransaction → Prop} {location : Nat × BlockHash} {blockHash : BlockHash}
  {found : Option (Nat × BlockHash)}

/-- The canonical block at the height has the block hash, and a transaction with the hash is in it. -/
def Ledger.Holds (paqus : Paqus F) (ledger : Ledger) (hash : TransactionHash) (height : Nat)
    (blockHash : BlockHash) : Prop :=
  ∃ block, ledger.block height = some block ∧ paqus.blockHash block = .ok blockHash ∧
    ∃ transaction ∈ block.transactions, paqus.codec.transactionHash transaction = .ok hash

/-- Transactions with the same hash follow the same state of the same signer, so that one is spent when
the other is. -/
def SpentTogether (paqus : Paqus F) (spent : Ledger → SignedProtocolTransaction → Prop) : Prop :=
  ∀ {ledger left right hash}, paqus.codec.transactionHash left = .ok hash →
    paqus.codec.transactionHash right = .ok hash → spent ledger left → spent ledger right

section Unique

variable (laws : ProtocolLaws paqus ranking) (replay : ReplayLaws paqus spent)
  (identity : SpentTogether paqus spent) {tip : BlockHash} {path : List ForkNode}

include laws replay identity

theorem Replays.hash_once (hg : GraphSound paqus ranking accounts forkChoice)
    (hroot : RootSpent paqus spent accounts forkChoice) (hbranch : Branch paqus forkChoice tip path)
    (h : Replays paqus accounts path ledger) {left right : ForkNode} (hleft : left ∈ path)
    (hright : right ∈ path) {transaction other : SignedProtocolTransaction} {hash : TransactionHash}
    (hmem : transaction ∈ left.block.transactions) (hother : other ∈ right.block.transactions)
    (hhash : paqus.codec.transactionHash transaction = .ok hash)
    (hsame : paqus.codec.transactionHash other = .ok hash) : left = right := by
  induction hbranch generalizing ledger with
  | root found top =>
    cases List.mem_singleton.mp hleft
    cases List.mem_singleton.mp hright
    rfl
  | step found up rest ih =>
    cases h with
    | genesis _ _ => cases rest
    | block before applied =>
      rw [laws.ledger.apply_eq] at applied
      rcases List.mem_cons.mp hleft with rfl | hold
      · rcases List.mem_cons.mp hright with rfl | hold
        · rfl
        · have hspent := before.spends laws replay hg hroot rest hold hother
          exact (replay.unrepeated (identity hsame hhash hspent) hmem applied).elim
      · rcases List.mem_cons.mp hright with rfl | hold'
        · have hspent := before.spends laws replay hg hroot rest hold hmem
          exact (replay.unrepeated (identity hhash hsame hspent) hother applied).elim
        · exact ih before hold hold'

theorem OnBranch.holds_unique (hg : GraphSound paqus ranking accounts forkChoice)
    (hroot : RootSpent paqus spent accounts forkChoice)
    (h : OnBranch paqus accounts forkChoice ledger tip path) {hash : TransactionHash} {height' : Nat}
    {blockHash' : BlockHash} (hholds : ledger.Holds paqus hash height blockHash)
    (hholds' : ledger.Holds paqus hash height' blockHash') : height = height' ∧ blockHash = blockHash' := by
  obtain ⟨block, hblock, hhash, transaction, hmem, htransaction⟩ := hholds
  obtain ⟨block', hblock', hhash', transaction', hmem', htransaction'⟩ := hholds'
  obtain ⟨node, hnode, rfl, rfl⟩ := (h.block_iff laws hg).mp hblock
  obtain ⟨node', hnode', rfl, rfl⟩ := (h.block_iff laws hg).mp hblock'
  obtain ⟨rebuilt, hreplay, _⟩ := h.replay
  cases hreplay.hash_once laws replay identity hg hroot h.branch hnode hnode' hmem hmem' htransaction htransaction'
  exact ⟨rfl, Except.ok.inj (hhash.symm.trans hhash')⟩

end Unique

section Location

variable {hash : TransactionHash}

theorem locationInBlock_spec {transactions : List SignedProtocolTransaction}
    (h : locationInBlock paqus hash block transactions = .ok found) :
    match found with
    | some location => location.1 = block.height ∧ paqus.blockHash block = .ok location.2 ∧
        ∃ transaction ∈ transactions, paqus.codec.transactionHash transaction = .ok hash
    | none => ∀ transaction ∈ transactions, paqus.codec.transactionHash transaction ≠ .ok hash := by
  induction transactions with
  | nil => cases h; exact nofun
  | cons transaction rest ih =>
    unfold locationInBlock at h
    split at h
    next => cases h
    next other hfirst =>
      split at h
      next heq =>
        split at h
        next => cases h
        next blockHash hblock =>
          cases h
          exact ⟨rfl, hblock, transaction, List.mem_cons_self .., heq ▸ hfirst⟩
      next hne =>
        have hrest := ih h
        cases found with
        | some location =>
          obtain ⟨hheight, hhash, later, hlater, hsame⟩ := hrest
          exact ⟨hheight, hhash, later, List.mem_cons_of_mem _ hlater, hsame⟩
        | none =>
          refine List.forall_mem_cons.mpr ⟨?_, hrest⟩
          rw [hfirst]
          exact fun heq => hne (Except.ok.inj heq)

theorem locationInBlocks_spec {blocks : List Block} (h : locationInBlocks paqus hash blocks = .ok found) :
    match found with
    | some location => ∃ block ∈ blocks, location.1 = block.height ∧ paqus.blockHash block = .ok location.2 ∧
        ∃ transaction ∈ block.transactions, paqus.codec.transactionHash transaction = .ok hash
    | none => ∀ block ∈ blocks, ∀ transaction ∈ block.transactions,
        paqus.codec.transactionHash transaction ≠ .ok hash := by
  induction blocks with
  | nil => cases h; exact nofun
  | cons block rest ih =>
    unfold locationInBlocks at h
    split at h
    next => cases h
    next location hfirst =>
      cases h
      exact ⟨block, List.mem_cons_self .., locationInBlock_spec hfirst⟩
    next hfirst =>
      have hrest := ih h
      cases found with
      | some location =>
        obtain ⟨other, hother, hholds⟩ := hrest
        exact ⟨other, List.mem_cons_of_mem _ hother, hholds⟩
      | none => exact List.forall_mem_cons.mpr ⟨locationInBlock_spec hfirst, hrest⟩

theorem canonicalTransactionLocation_holds
    (hheights : ∀ {height block}, ledger.block height = some block → block.height = height)
    (h : canonicalTransactionLocation paqus ledger hash = .ok (some location)) :
    ledger.Holds paqus hash location.1 location.2 := by
  obtain ⟨block, hblock, hheight, hhash, htransaction⟩ := locationInBlocks_spec h
  obtain ⟨⟨height, _⟩, hmem, rfl⟩ := List.mem_map.mp hblock
  have hfound : ledger.block height = some _ := ExtTreeMap.mem_toList_iff_getElem?_eq_some.mp hmem
  rw [hheight, hheights hfound]
  exact ⟨_, hfound, hhash, htransaction⟩

theorem canonicalTransactionLocation_absent (h : canonicalTransactionLocation paqus ledger hash = .ok none) :
    ¬ledger.Holds paqus hash height blockHash := by
  rintro ⟨block, hblock, _, transaction, hmem, htransaction⟩
  refine locationInBlocks_spec h block ?_ transaction hmem htransaction
  exact List.mem_map.mpr ⟨(height, block), ExtTreeMap.mem_toList_iff_getElem?_eq_some.mpr hblock, rfl⟩

end Location

end PaqusNetwork
