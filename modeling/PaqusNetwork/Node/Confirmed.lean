import PaqusNetwork.Reference.Sample

namespace PaqusNetwork

open Effect

variable {F : Type} {paqus : Paqus F} {ranking : Ranking} {spent : Ledger → SignedProtocolTransaction → Prop}

/-- No pooled transaction is in a block of the canonical chain. -/
def PoolUnconfirmed (main : Main F) : Prop := main.mempool.Every fun _ transaction => ¬main.ledger.Confirms transaction

variable {node : Node F} {block : Block}

section Pool

variable (replay : ReplayLaws paqus spent) {ledger : Ledger}

include replay

theorem Mempool.Step.unconfirmed (hspent : ∀ transaction, ledger.Confirms transaction → spent ledger transaction)
    {pool next : Mempool} (h : Mempool.Step paqus ledger pool next)
    (hpool : pool.Every fun _ transaction => ¬ledger.Confirms transaction) :
    next.Every fun _ transaction => ¬ledger.Confirms transaction := by
  refine h.every hpool fun _ hacceptable hconfirms => ?_
  obtain ⟨staged, hstaged⟩ := hacceptable.applies
  refine replay.applyPending_refused (hspent _ hconfirms) ?_ hstaged
  exact (List.perm_insertionSort _ _).mem_iff.mpr (by simp)

def Clear (ledger : Ledger) (node : Node F) : Prop :=
  node.ledger = ledger ∧ node.mempool.Every fun _ transaction => ¬ledger.Confirms transaction

variable (hspent : ∀ transaction, ledger.Confirms transaction → spent ledger transaction)

include hspent

theorem stable_clear : Stable paqus (Clear (F := F) ledger) where
  storage _ h := h
  mempool := by
    rintro node mempool step ⟨rfl, hpool⟩
    exact ⟨rfl, step.unconfirmed replay hspent hpool⟩
  clockReads _ h := h

theorem recordSwitch_clear (oldBlocks : List Block) (plan : ReorgPlan) :
    Keeps (Clear ledger) (recordSwitch paqus oldBlocks plan ledger) := by
  have hstable := stable_clear replay hspent
  unfold recordSwitch
  refine Keeps.bind_liftExcept fun cache _ => ?_
  refine Keeps.bind (Yields.modify fun _ h => h) fun _ => ?_
  refine (hstable.onStorage_keeps fun _ => .saveLedger _).bind fun _ => ?_
  refine Keeps.get.bind fun node => ?_
  refine (hstable.recordDisconnected_keeps _ _ _).bind fun _ => ?_
  refine Keeps.bind (Yields.modify fun _ h => h) fun _ => ?_
  exact Yields.discard (pruneFinalizedForks_keeps paqus fun _ _ h => h)

theorem extendActiveTip_clear
    {old : Ledger} (hgenesis : block.isGenesis = false) (hnew : ∀ transaction, ledger.Confirms transaction →
      old.Confirms transaction ∨ transaction ∈ block.transactions)
    (hhash : ∀ transaction ∈ block.transactions, ∃ hash, paqus.codec.transactionHash transaction = .ok hash)
    (hencoded : node.mempool.Every (Mempool.Encoded paqus))
    (hpool : node.mempool.Every fun _ transaction => ¬old.Confirms transaction) :
    Clear ledger (state (extendActiveTip paqus block (some ledger) node)) := by
  have hstable := stable_clear replay hspent
  rw [extendActiveTip_some, finishExtension, hgenesis, runIf_false, pure_bind]
  let P : Node F → Prop := fun node => node.ledger = ledger ∧ node.mempool.Every (Mempool.Encoded paqus) ∧
    node.mempool.Every fun _ transaction => ¬old.Confirms transaction
  have hremove : Yields P (Clear ledger)
      (onMempool (Mempool.removeConfirmed paqus block) : NodeM F Unit) := by
    rintro node ⟨hledger, hencoded, hpool⟩
    obtain ⟨next, hnext, hevery⟩ := Mempool.removeConfirmed_ok hencoded hhash
    unfold onMempool
    rw [state_focus, hnext]
    refine ⟨hledger, fun hash transaction hfound hconfirms => ?_⟩
    obtain ⟨hpooled, hother⟩ := hevery hash transaction hfound
    rcases hnew transaction hconfirms with hold | hmem
    · exact hpool hash transaction hpooled hold
    · exact hother hmem
  refine Yields.bind hremove (fun _ h => h) (fun _ => ?_) _ ⟨rfl, hencoded, hpool⟩
  refine (hstable.markRollbackIssuesReconfirmed_keeps block).bind fun _ => ?_
  refine Keeps.get.bind fun node => ?_
  refine Keeps.bind_liftExcept fun cache _ => ?_
  refine Keeps.bind (Yields.modify fun _ h => h) fun _ => ?_
  refine (hstable.onStorage_keeps fun _ => .saveLedger _).bind fun _ => ?_
  exact Yields.discard (pruneFinalizedForks_keeps paqus fun _ _ h => h)

end Pool

def branchTransactions (paqus : Paqus F) (forkChoice : F) (tip : BlockHash) : List SignedProtocolTransaction :=
  ((paqus.fork.ancestorHashes forkChoice tip).filterMap (paqus.fork.get forkChoice)).flatMap
    fun node => node.block.transactions

/-- A block that makes the node switch to its branch has no pooled transaction in it. -/
def SwitchesUnpooled (paqus : Paqus F) (main : Main F) (block : Block) : Prop :=
  ∀ staged hash forkChoice, Admits paqus main.toCore block staged hash forkChoice →
    BestAfter paqus hash forkChoice → extendsActiveTip main.ledger block = false →
      (Core.planReorg paqus { main.toCore with forkChoice }).isOk = true →
      ∀ transaction ∈ main.mempool.values, transaction ∉ branchTransactions paqus forkChoice hash

instance SwitchesUnpooled.decidable (paqus : Paqus F) (main : Main F) (block : Block) :
    Decidable (SwitchesUnpooled paqus main block) :=
  forallAdmits.decidable paqus main.toCore block fun _ _ => _

theorem OnBranch.confirms_mem (laws : ProtocolLaws paqus ranking)
    {accounts : BTreeMap Address Account} {forkChoice : F} {ledger : Ledger} {tip : BlockHash}
    {path : List ForkNode} (hg : GraphSound paqus ranking accounts forkChoice)
    (h : OnBranch paqus accounts forkChoice ledger tip path) {transaction : SignedProtocolTransaction}
    (hconfirms : ledger.Confirms transaction) :
    transaction ∈ branchTransactions paqus forkChoice tip := by
  obtain ⟨height, block, hblock, hmem⟩ := hconfirms
  obtain ⟨node, hnode, _, rfl⟩ := (h.block_iff laws hg).mp hblock
  unfold branchTransactions
  rw [laws.fork.ancestors h.branch]
  refine List.mem_flatMap.mpr ⟨node, List.mem_filterMap.mpr ⟨node.hash, ?_, ?_⟩, hmem⟩
  · exact List.mem_map_of_mem hnode
  · exact hg.mem_path h.branch hnode

section Run

variable (laws : ProtocolLaws paqus ranking) (encoding : EncodingLaws paqus) (replay : ReplayLaws paqus spent)

include laws encoding replay

theorem connectBlock_unconfirmed (hs : node.toCore.Sound paqus ranking)
    (hroot : RootSpent paqus spent node.genesisAccounts node.forkChoice)
    (hencoded : node.mempool.Every (Mempool.Encoded paqus)) (hpool : PoolUnconfirmed node.toMain)
    (hallowed : SwitchesUnpooled paqus node.toMain block) :
    PoolUnconfirmed (state (connectBlock paqus block node)).toMain := by
  have hclear : ∀ {ledger : Ledger} {next : Node F}, Clear ledger next → PoolUnconfirmed next.toMain := by
    rintro ledger next ⟨rfl, hnext⟩
    exact hnext
  have hsettles : Settles paqus block node _ := connectBlock_settles block node
  generalize state (connectBlock paqus block node) = next at hsettles ⊢
  cases hsettles with
  | refused => exact hpool
  | unplanned admitted => exact hpool
  | stored admitted step _ => exact hpool
  | extended admitted best onTip =>
    obtain ⟨path, hold, hnew, _⟩ := admitted.extended laws hs onTip
    have hgraph := admitted.graphSound laws hs
    refine hclear (extendActiveTip_clear replay (fun transaction => ?_)
      (admitted.not_genesis laws hs) (fun transaction hconfirms => ?_) (fun transaction => ?_) hencoded hpool)
    rotate_right
    · exact encoding.transaction_hash (admitted.storable laws encoding hs).structural
    · exact hnew.spends laws replay hgraph (hroot.inserted laws hs admitted)
    · obtain ⟨height, other, hother, hmem⟩ := hconfirms
      obtain ⟨found, hfound, hheight, rfl⟩ := (hnew.block_iff laws hgraph).mp hother
      rcases List.mem_cons.mp hfound with rfl | hrest
      · exact .inr hmem
      · exact .inl ⟨height, _, (hold.block_iff laws hs.graph).mpr ⟨found, hrest, hheight, rfl⟩, hmem⟩
  | switched admitted best offTip planned saved rebuilt =>
    obtain ⟨path, _, hon⟩ := admitted.rebuilt_onBranch laws hs best planned rebuilt
    have hgraph := admitted.graphSound laws hs
    refine hclear (recordSwitch_clear replay (fun transaction => ?_) _ _ _ ⟨rfl, ?_⟩)
    · exact hon.spends laws replay hgraph (hroot.inserted laws hs admitted)
    · intro key transaction hfound hconfirms
      exact hallowed _ _ _ admitted best offTip (by rw [planned]; rfl) transaction (Mempool.mem_values.mpr ⟨_, hfound⟩)
        (hon.confirms_mem laws hgraph hconfirms)

/-- In every run in which no reorganisation brings a pooled transaction into the canonical chain, no pooled
transaction is in a canonical block. -/
theorem Run.pool_unconfirmed {faults : Nat → Option StorageError} {consensus : Consensus}
    {clock : Nat → Nat} {config : MempoolConfig} {start node : Node F}
    (hstart : initFresh paqus (Storage.empty faults) consensus clock = .ok start)
    (h : Run paqus { start with mempool := Mempool.withConfig config } node)
    (hallowed : ∀ connection ∈ connectionsSince start node, SwitchesUnpooled paqus connection.1 connection.2) :
    PoolUnconfirmed node.toMain := by
  obtain ⟨genesis, hfresh⟩ := initFresh_fresh laws hstart
  let I : Main F → Prop := fun main => (main.toCore.Sound paqus ranking ∧
    RootSpent paqus spent main.genesisAccounts main.forkChoice) ∧ Healthy paqus main ∧ PoolUnconfirmed main
  have haside : Aside paqus fun node : Node F => Healthy paqus node.toMain := aside_healthy
  have hspent : ∀ {main : Main F}, I main → ∀ transaction, main.ledger.Confirms transaction →
      spent main.ledger transaction := by
    rintro main ⟨⟨hs, hroot⟩, _⟩ transaction
    obtain ⟨tip, path, hactive⟩ := hs.active
    exact hactive.spends laws replay hs.graph hroot
  have hstable : Stable paqus fun node : Node F => I node.toMain := by
    refine ⟨fun step h => ?_, fun step h => ?_, fun _ h => h⟩
    · exact ⟨h.1, haside.storage step h.2.1, h.2.2⟩
    · exact ⟨h.1, haside.mempool step h.2.1, step.unconfirmed replay (hspent h) h.2.2⟩
  have hinv : I node.toMain := by
    refine h.keeps_calls hstable.mempool hstable.retryRollbackIssue_keeps ?_ ?_ hallowed
    · intro block node hI hok
      have hcore := applyKnownParentBlock_core paqus block node
      rw [applyKnownParentBlock_eq] at hcore ⊢
      refine ⟨⟨hI.1.1.step laws hcore, hI.1.2.step laws hI.1.1 hcore⟩, haside.connectBlock_keeps block _ hI.2.1, ?_⟩
      exact connectBlock_unconfirmed laws encoding replay hI.1.1 hI.1.2 hI.2.1.pool.encoded hI.2.2 hok
    · refine ⟨⟨hfresh.sound laws, hfresh.rootSpent laws replay⟩, hfresh.healthy config, ?_⟩
      intro hash transaction hfound
      simp [Mempool.withConfig] at hfound
  exact hinv.2.2

end Run

namespace Reference

def unpooledCalls : List NodeCall :=
  [.submit (transfer 503 3 0 4 30), .applyBlock (Tip.genesis.next 111 1 [transfer 501 1 0 2 30]).block,
    .applyBlock (Tip.genesis.next 121 100 [transfer 502 2 0 4 30]).block]

theorem pool_unconfirmed_switched :
    ∃ start node, freshNode 2 = .ok start ∧
      node = afterCalls (protocol 2) { start with mempool := Mempool.withConfig .default } unpooledCalls ∧
      node.reorgsTotal = 1 ∧ node.mempool.values = [transfer 501 1 0 2 30, transfer 503 3 0 4 30] ∧
      PoolUnconfirmed node.toMain := by
  obtain ⟨start, hstart⟩ : ∃ start, freshNode 2 = .ok start := exists_ok (by decide +kernel)
  exact ⟨start, _, hstart, rfl, of_ok hstart (by decide +kernel), of_ok hstart (by decide +kernel),
    Run.pool_unconfirmed (protocol_laws 2) (encoding_laws 2) (replay_laws 2) hstart (Run.calls _ .start _)
      (of_ok hstart (by decide +kernel))⟩

/-- A pooled transaction that the winning branch of a reorganisation confirms stays in the pool. -/
theorem pool_keeps_confirmed :
    ∃ node next, Reachable (protocol 2) node ∧
      applyBlock (protocol 2) (Tip.genesis.next 121 100 [transfer 502 2 0 4 30]).block node = .ok () next ∧
      ¬PoolUnconfirmed next.toMain := by
  obtain ⟨node, hnode, hok, hpooled, hblock⟩ : ∃ node, sampleRun 2
      [.submit (transfer 502 2 0 4 30), .applyBlock (Tip.genesis.next 111 1 []).block] = .ok node ∧
      let applied := applyBlock (protocol 2) (Tip.genesis.next 121 100 [transfer 502 2 0 4 30]).block node
      (outcome applied).toOption = some () ∧ (state applied).mempool.transactions[502]? = some (transfer 502 2 0 4 30) ∧
        (state applied).ledger.block 1 = some (Tip.genesis.next 121 100 [transfer 502 2 0 4 30]).block :=
    exists_ok_and (by decide +kernel)
  refine ⟨node, _, sampleRun_reachable hnode, ok_of_outcome hok, fun h => h 502 _ hpooled ⟨1, _, hblock, ?_⟩⟩
  decide +kernel

end Reference

end PaqusNetwork
