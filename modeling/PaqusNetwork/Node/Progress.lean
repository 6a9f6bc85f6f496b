import PaqusNetwork.Node.Run
import PaqusNetwork.Node.Start

namespace PaqusNetwork

open Effect Numeric

variable {F : Type} {paqus : Paqus F} {ranking : Ranking} (laws : ProtocolLaws paqus ranking)
  (encoding : EncodingLaws paqus) {block : Block} {staged : Option Ledger} {core next : Core F} {forkChoice : F}

/-- The stored rollback issues are valid and the pool was built by its own operations. -/
structure Healthy (paqus : Paqus F) (main : Main F) : Prop where
  issues : main.storage.IssuesValid paqus
  pool : main.mempool.Built paqus

theorem aside_healthy : Aside paqus fun node : Node F => Healthy paqus node.toMain where
  storage step h := ⟨step.issuesValid h.issues, h.pool⟩
  mempool step h := ⟨h.issues, .step h.pool step⟩
  clockReads _ h := h
  main _ _ _ _ _ _ h := ⟨h.issues, h.pool⟩

/-- What the storage layer asks of a block, and of a genesis block in addition. -/
structure Storable (paqus : Paqus F) (block : Block) : Prop where
  structural : paqus.rules.validateStructure block = true
  hashed : ∃ hash, paqus.blockHash block = .ok hash
  genesis : block.height = 0 → ∃ ledger, paqus.ledger.applyBlock paqus.ledger.new block = .ok ledger

def GraphStorable (paqus : Paqus F) (forkChoice : F) : Prop :=
  ∀ hash node, paqus.fork.get forkChoice hash = some node → Storable paqus node.block

section Step

include laws

variable {key : BlockHash} {node : ForkNode}

theorem Pruned.sub (hs : core.Sound paqus ranking) (h : Pruned paqus core next)
    (hn : paqus.fork.get next.forkChoice key = some node) : paqus.fork.get core.forkChoice key = some node := by
  rcases h.cases_sound laws hs with rfl | ⟨_, _, final, count, _, _, _, hfinal, hprune, _⟩
  · exact hn
  · exact prune_sub laws hfinal hprune key node hn

theorem CoreStep.known (hs : core.Sound paqus ranking) (h : CoreStep paqus block core next)
    (hn : paqus.fork.get next.forkChoice key = some node) :
    paqus.fork.get core.forkChoice key = some node ∨ node.block = block ∧
      ∃ staged hash forkChoice, Admits paqus core block staged hash forkChoice := by
  have hnew : ∀ {staged hash forkChoice}, Admits paqus core block staged hash forkChoice →
      paqus.fork.get forkChoice key = some node → paqus.fork.get core.forkChoice key = some node ∨
        node.block = block ∧ ∃ staged hash forkChoice, Admits paqus core block staged hash forkChoice := by
    intro staged hash forkChoice hadm hget
    obtain ⟨parent, hgrown⟩ := hadm.grown laws hs
    rcases hgrown.cases_get hget with ⟨_, rfl⟩ | hold
    · exact .inr ⟨rfl, _, _, _, hadm⟩
    · exact .inl hold
  cases h.sound laws hs with
  | refused => exact .inl hn
  | inserted admitted => exact hnew admitted hn
  | moved admitted _ _ sound pruned => exact hnew admitted (Pruned.sub laws sound pruned hn)

variable {hash : BlockHash} (hs : core.Sound paqus ranking)

include encoding hs

theorem Admits.storable (h : Admits paqus core block staged hash forkChoice) : Storable paqus block := by
  obtain ⟨parent, hgrown⟩ := h.grown laws hs
  have hheight : block.height ≠ 0 := by rw [hgrown.height_eq]; omega
  have hvalid := h.valid
  simp only [Core.validateBlockForKnownParent, hheight, if_false, hgrown.parent_known,
    except_bind_eq_ok, mapError_eq_ok] at hvalid
  obtain ⟨_, _, hnext⟩ := hvalid
  exact ⟨encoding.next_structure hnext, ⟨hash, hgrown.hash_eq⟩, fun hzero => absurd hzero hheight⟩

theorem GraphStorable.inserted (hg : GraphStorable paqus core.forkChoice)
    (h : Admits paqus core block staged hash forkChoice) : GraphStorable paqus forkChoice := by
  intro key found hfound
  obtain ⟨parent, hgrown⟩ := h.grown laws hs
  rcases hgrown.cases_get hfound with ⟨_, rfl⟩ | hold
  · exact h.storable laws encoding hs
  · exact hg key found hold

theorem GraphStorable.step (hg : GraphStorable paqus core.forkChoice)
    (h : CoreStep paqus block core next) : GraphStorable paqus next.forkChoice := by
  intro key node hn
  rcases h.known laws hs hn with hold | ⟨rfl, _, _, _, hadm⟩
  · exact hg key node hold
  · exact hadm.storable laws encoding hs

end Step

variable {faults : Nat → Option StorageError}

section Reach

theorem aside_faults (faults : Nat → Option StorageError) :
    Aside paqus fun node : Node F => node.storage.faults = faults where
  storage step h := step.keeps (I := fun _ kept _ => kept = faults) (fun _ _ _ h => h) (fun _ _ _ _ _ h => h) h
  mempool _ h := h
  clockReads _ h := h
  main _ _ _ _ _ _ h := h

theorem Run.faults_eq {start node : Node F} (h : Run paqus start node) :
    node.storage.faults = start.storage.faults := by
  have haside : Aside paqus _ := aside_faults start.storage.faults
  exact h.keeps_track (I := fun track => track.1.storage.faults = start.storage.faults) haside.toStable
    (fun block node hnode => haside.connectBlock_keeps block _ hnode) rfl

variable {clock : Nat → Nat} {genesis : ForkNode}

theorem Fresh.healthy {node : Node F} (h : Fresh paqus ranking faults clock genesis node) (config : MempoolConfig) :
    Healthy paqus { node.toMain with mempool := .withConfig config } := by
  refine ⟨?_, .withConfig config⟩
  intro id issue hfound
  simp [h.issues_eq] at hfound

include laws

theorem Reachable.healthy {node : Node F} (h : Reachable paqus node) : Healthy paqus node.toMain := by
  obtain ⟨faults, consensus, clock, config, start, hstart, hrun⟩ := h
  obtain ⟨genesis, hfresh⟩ := initFresh_fresh laws hstart
  have haside : Aside paqus fun node : Node F => Healthy paqus node.toMain := aside_healthy
  refine hrun.keeps_track (I := fun track => Healthy paqus track.1) haside.toStable ?_ (hfresh.healthy config)
  intro block node hnode
  exact haside.connectBlock_keeps block _ hnode

include encoding

theorem Fresh.storable {node : Node F}
    (h : Fresh paqus ranking faults clock genesis node) : GraphStorable paqus node.forkChoice := by
  intro key n hn
  obtain ⟨rfl, rfl⟩ := h.known.mp hn
  obtain ⟨block, hash, hzero, hhash, hchain, _, _, _, ledger, happly, _⟩ := laws.ledger.genesis h.ledger_eq
  have hblock : block = n.block := by
    have hlook := congrArg (fun c : Chain => c.blocks[0]?) (hchain.symm.trans h.chain_eq)
    simpa [Chain.push, hzero, h.height_eq] using hlook
  subst hblock
  have hat : node.ledger.block 0 = some n.block := by
    simp [Ledger.block, h.chain_eq, Chain.push, h.height_eq]
  exact ⟨encoding.genesis_structure h.ledger_eq hat, ⟨_, h.block_hash⟩, fun _ => ⟨ledger, happly⟩⟩

theorem Reachable.storable {node : Node F} (h : Reachable paqus node) : GraphStorable paqus node.forkChoice := by
  obtain ⟨faults, consensus, clock, config, start, hstart, hrun⟩ := h
  obtain ⟨genesis, hfresh⟩ := initFresh_fresh laws hstart
  refine (hrun.keeps_core (I := fun core => core.Sound paqus ranking ∧ GraphStorable paqus core.forkChoice)
    (fun hI hstep => ⟨hI.1.step laws hstep, hI.2.step laws encoding hI.1 hstep⟩) ?_).2
  exact ⟨hfresh.sound laws, hfresh.storable laws encoding⟩

end Reach

variable {spent : Ledger → SignedProtocolTransaction → Prop} {ledger : Ledger} {hash tip : BlockHash}
  {transaction : SignedProtocolTransaction} {path : List ForkNode}

def Ledger.Confirms (ledger : Ledger) (transaction : SignedProtocolTransaction) : Prop :=
  ∃ height block, ledger.block height = some block ∧ transaction ∈ block.transactions

/-- The transactions of the genesis block are spent on the ledger that every replay starts from. -/
def RootSpent (paqus : Paqus F) (spent : Ledger → SignedProtocolTransaction → Prop)
    (accounts : BTreeMap Address Account) (forkChoice : F) : Prop :=
  ∀ root ledger, paqus.fork.get forkChoice paqus.rules.genesisHash = some root →
    Replays paqus accounts [root] ledger → ∀ transaction ∈ root.block.transactions, spent ledger transaction

section Spent

variable (replay : ReplayLaws paqus spent) {accounts : BTreeMap Address Account}

include laws replay

theorem Replays.spends (hg : GraphSound paqus ranking accounts forkChoice)
    (hroot : RootSpent paqus spent accounts forkChoice) (hbranch : Branch paqus forkChoice tip path)
    (h : Replays paqus accounts path ledger) {node : ForkNode} (hnode : node ∈ path)
    (hmem : transaction ∈ node.block.transactions) :
    spent ledger transaction := by
  induction hbranch generalizing ledger with
  | root found top =>
    rename_i key root
    have hheight : root.height = 0 := by
      by_contra hne
      simp [ForkNode.parent?, hne] at top
    cases hg.genesis_only found hheight
    cases List.mem_singleton.mp hnode
    exact hroot node ledger found h transaction hmem
  | step found up rest ih =>
    cases h with
    | genesis _ _ => cases rest
    | block before applied =>
      rw [laws.ledger.apply_eq] at applied
      rcases List.mem_cons.mp hnode with rfl | hrest
      · exact replay.executed applied hmem
      · exact replay.kept applied (ih before hrest)

theorem OnBranch.spends (hg : GraphSound paqus ranking accounts forkChoice)
    (hroot : RootSpent paqus spent accounts forkChoice) (h : OnBranch paqus accounts forkChoice ledger tip path)
    (hconfirms : ledger.Confirms transaction) :
    spent ledger transaction := by
  obtain ⟨height, block, hblock, hmem⟩ := hconfirms
  obtain ⟨node, hnode, _, rfl⟩ := (h.block_iff laws hg).mp hblock
  obtain ⟨rebuilt, hreplay, hsame⟩ := h.replay
  exact replay.same hsame (hreplay.spends laws replay hg hroot h.branch hnode hmem)

omit replay in
theorem RootSpent.inserted (hs : core.Sound paqus ranking)
    (hroot : RootSpent paqus spent accounts core.forkChoice) (h : Admits paqus core block staged hash forkChoice) :
    RootSpent paqus spent accounts forkChoice := by
  intro root ledger hfound hreplay
  obtain ⟨parent, hgrown⟩ := h.grown laws hs
  rcases hgrown.cases_get hfound with ⟨heq, _⟩ | hold
  · -- The genesis block is known, so it cannot be the block that was inserted.
    obtain ⟨genesis, hgenesis⟩ := hs.graph.genesis_known
    obtain ⟨_, hnew⟩ := laws.fork.insert_hash h.inserted
    rw [← heq, hgenesis] at hnew
    cases hnew
  · exact hroot root ledger hold hreplay

omit replay in
theorem Pruned.rootSpent (h : Pruned paqus core next) (hs : core.Sound paqus ranking)
    (hroot : RootSpent paqus spent core.genesisAccounts core.forkChoice) :
    RootSpent paqus spent next.genesisAccounts next.forkChoice := by
  intro root ledger hfound hreplay
  rw [h.same.2.1] at hreplay
  exact hroot root ledger (h.sub laws hs hfound) hreplay

omit replay in
theorem RootSpent.step (hs : core.Sound paqus ranking)
    (hroot : RootSpent paqus spent core.genesisAccounts core.forkChoice) (h : CoreStep paqus block core next) :
    RootSpent paqus spent next.genesisAccounts next.forkChoice := by
  cases h.sound laws hs with
  | refused => exact hroot
  | inserted admitted => exact hroot.inserted laws hs admitted
  | moved admitted _ _ sound pruned => exact pruned.rootSpent laws sound (hroot.inserted laws hs admitted)

theorem Fresh.rootSpent {clock : Nat → Nat} {genesis : ForkNode}
    {node : Node F} (h : Fresh paqus ranking faults clock genesis node) :
    RootSpent paqus spent node.genesisAccounts node.forkChoice := by
  intro root ledger hfound hreplay transaction hmem
  obtain ⟨_, rfl⟩ := h.known.mp hfound
  obtain ⟨tip, path, hactive⟩ := (h.sound laws).active
  obtain ⟨rebuilt, hrebuilt, hsame⟩ := hactive.replay
  have hblock : node.ledger.block 0 = some root.block := by
    simp [Ledger.block, h.chain_eq, Chain.push, h.height_eq]
  have hpath : path = [root] := by
    obtain ⟨first, rest, rfl, hfirst⟩ := hactive.branch.head
    obtain ⟨rfl, rfl⟩ := h.known.mp hfirst
    have hheight : first.height = 0 := by rw [h.genesis_eq]; exact h.height_eq
    exact hactive.branch.unique (.root hfirst (by simp [ForkNode.parent?, hheight]))
  subst hpath
  cases hrebuilt.unique hreplay
  exact replay.same hsame.symm (replay.genesis h.ledger_eq hblock hmem)

end Spent

variable {issue : RollbackIssue} {index : Nat} {transactions : List SignedProtocolTransaction} {core : Core F}

/-- The node is on the given ledger and graph, and its database and pool can be worked with. -/
structure Ready (paqus : Paqus F) (core : Core F) (node : Node F) : Prop where
  core_eq : node.toCore = core
  storage : node.storage.Working paqus
  pool : node.mempool.Built paqus

theorem stable_ready (core : Core F) : Stable paqus (Ready paqus core) where
  storage step h := ⟨h.core_eq, step.working h.storage, h.pool⟩
  mempool step h := ⟨h.core_eq, h.storage, .step h.pool step⟩
  clockReads _ h := ⟨h.core_eq, h.storage, h.pool⟩

def LedgerStorable (paqus : Paqus F) (ledger : Ledger) : Prop :=
  ∀ block ∈ ledger.storedBlocks, Storable paqus block

theorem onStorage_returns {α : Type} {program : StorageM α} {P : α → Prop}
    (hstep : ∀ storage, Storage.Step paqus storage (state (program storage)))
    (hok : ∀ {storage}, storage.Working paqus → ∃ a next, program storage = .ok a next ∧ P a) :
    Returns (Ready paqus core) (fun a node => P a ∧ Ready paqus core node)
      (onStorage program : NodeM F α) := by
  intro node hnode
  obtain ⟨a, next, hrun, hp⟩ := hok hnode.storage
  have hready := (stable_ready core).onStorage_keeps hstep node hnode
  have hresult : (onStorage program : NodeM F α) node = .ok a { node with storage := next } := by
    simp only [onStorage, focus, hrun]
  rw [hresult] at hready
  exact ⟨a, _, hresult, hp, hready⟩

theorem saveRollbackIssue_returns (hissue : Storage.validateRollbackIssue paqus issue none = .ok ()) :
    Returns (Ready paqus core) (fun _ => Ready paqus core)
      (onStorage (Storage.saveRollbackIssue paqus issue) : NodeM F Unit) :=
  (onStorage_returns (P := fun _ => True) (fun _ => .saveRollbackIssue issue) fun h => by
    obtain ⟨next, hrun⟩ := Storage.saveRollbackIssue_ok hissue h
    exact ⟨(), next, hrun, trivial⟩).weaken fun _ _ h => h.2

theorem validateRollbackIssue_congr {issue' : RollbackIssue} {expected : Option RollbackIssueId}
    (hid : issue'.id = issue.id) (htx : issue'.transaction = issue.transaction)
    (hhash : issue'.transactionHash = issue.transactionHash)
    (hblock : issue'.disconnectedBlockHash = issue.disconnectedBlockHash) :
    Storage.validateRollbackIssue paqus issue' expected =
      Storage.validateRollbackIssue paqus issue expected := by
  simp only [Storage.validateRollbackIssue, hid, htx, hhash, hblock]

variable (paqus) in
/-- The issue and the node after a retry: a transaction that is not on the chain is given to the pool. -/
def RollbackIssue.retried (issue : RollbackIssue) (node : Node F) : Option (Nat × BlockHash) → RollbackIssue × Node F
  | some (height, blockHash) =>
    ({ issue with
      retryAttempts := u32SaturatingAdd issue.retryAttempts 1
      status := .reconfirmed height blockHash
      lastError := none }, node)
  | none =>
    let submitted := submitProtocolTransaction paqus issue.transaction node
    (RollbackIssue.resubmitted paqus { issue with retryAttempts := u32SaturatingAdd issue.retryAttempts 1 }
      (outcome submitted), state submitted)

section Retried

variable {node : Node F} {location : Option (Nat × BlockHash)}

variable (paqus) in
theorem RollbackIssue.retried_fields (issue : RollbackIssue) (node : Node F) (location : Option (Nat × BlockHash)) :
    let stored := (issue.retried paqus node location).1
    stored.id = issue.id ∧ stored.transaction = issue.transaction ∧ stored.transactionHash = issue.transactionHash ∧
      stored.disconnectedBlockHash = issue.disconnectedBlockHash := by
  cases location with
  | some location => exact ⟨rfl, rfl, rfl, rfl⟩
  | none =>
    dsimp only [RollbackIssue.retried]
    unfold RollbackIssue.resubmitted
    split <;> exact ⟨rfl, rfl, rfl, rfl⟩

theorem RollbackIssue.validate_retried :
    Storage.validateRollbackIssue paqus (issue.retried paqus node location).1 none =
      Storage.validateRollbackIssue paqus issue none := by
  obtain ⟨hid, htransaction, hhash, hblock⟩ := issue.retried_fields paqus node location
  exact validateRollbackIssue_congr hid htransaction hhash hblock

variable (paqus) in
theorem RollbackIssue.retried_node (issue : RollbackIssue) (node : Node F) (location : Option (Nat × BlockHash)) :
    (issue.retried paqus node location).2.ledger = node.ledger ∧
      (issue.retried paqus node location).2.storage = node.storage := by
  cases location with
  | some location => exact ⟨rfl, rfl⟩
  | none =>
    exact submitProtocolTransaction_keeps (I := fun other : Node F => other.ledger = node.ledger ∧
      other.storage = node.storage) (fun _ h => h) (fun _ h => h) issue.transaction node ⟨rfl, rfl⟩

theorem retryRollbackIssueRecord_eq (issue : RollbackIssue) (verifyProof : Bool) :
    retryRollbackIssueRecord paqus issue verifyProof = (do
      runIf verifyProof (verifyRollbackIssue paqus issue)
      let node ← get
      let location ← liftExcept .codec (canonicalTransactionLocation paqus node.ledger issue.transactionHash)
      set (issue.retried paqus node location).2
      onStorage (Storage.saveRollbackIssue paqus (issue.retried paqus node location).1)
      return (issue.retried paqus node location).1) := by
  unfold retryRollbackIssueRecord
  congr 1
  funext _ node
  rw [get_bind, get_bind]
  dsimp only
  cases canonicalTransactionLocation paqus node.ledger issue.transactionHash with
  | error error => rfl
  | ok location =>
    rw [liftExcept_ok, pure_bind, pure_bind]
    cases location with
    | some location => rfl
    | none => exact bind_ok (attempt_apply (submitProtocolTransaction paqus issue.transaction) node)

theorem retryRollbackIssueRecord_eq_ok {verifyProof : Bool} {stored : RollbackIssue} {next : Node F} :
    retryRollbackIssueRecord paqus issue verifyProof node = .ok stored next ↔
      ∃ checked location, runIf verifyProof (verifyRollbackIssue paqus issue) node = .ok () checked ∧
        canonicalTransactionLocation paqus checked.ledger issue.transactionHash = .ok location ∧
        Storage.validateRollbackIssue paqus issue none = .ok () ∧
        checked.storage.faults checked.storage.calls = none ∧
        stored = (issue.retried paqus checked location).1 ∧
        next = { (issue.retried paqus checked location).2 with
          storage := { checked.storage with
            calls := checked.storage.calls + 1
            rollbackIssues := checked.storage.rollbackIssues.insert issue.id stored } } := by
  constructor
  · intro h
    rw [retryRollbackIssueRecord_eq] at h
    obtain ⟨_, checked, hchecked, hreading⟩ := bind_eq_ok.mp h
    rw [get_bind] at hreading
    obtain ⟨location, hlocation, hsetting⟩ := liftExcept_bind_eq_ok.mp hreading
    obtain ⟨_, _, hset, hsaving⟩ := bind_eq_ok.mp hsetting
    cases hset
    obtain ⟨_, _, hsaved, hreturn⟩ := bind_eq_ok.mp hsaving
    cases hreturn
    obtain ⟨_, hsave, rfl⟩ := onStorage_eq_ok.mp hsaved
    obtain ⟨hvalid, hquiet, rfl⟩ := Storage.saveRollbackIssue_eq_ok.mp hsave
    rw [RollbackIssue.validate_retried] at hvalid
    rw [(issue.retried_node paqus checked location).2] at hquiet
    rw [(issue.retried_node paqus checked location).2, (issue.retried_fields paqus checked location).1]
    exact ⟨checked, location, hchecked, hlocation, hvalid, hquiet, rfl, rfl⟩
  · rintro ⟨checked, location, hchecked, hlocation, hvalid, hquiet, rfl, rfl⟩
    rw [retryRollbackIssueRecord_eq, bind_ok hchecked, get_bind, hlocation, liftExcept_ok, pure_bind]
    refine bind_eq_ok.mpr ⟨⟨⟩, _, rfl, bind_eq_ok.mpr ⟨(), _, onStorage_eq_ok.mpr ⟨_, ?_, rfl⟩, rfl⟩⟩
    rw [Storage.saveRollbackIssue_eq_ok, RollbackIssue.validate_retried,
      (issue.retried_node paqus checked location).2, (issue.retried_fields paqus checked location).1]
    exact ⟨hvalid, hquiet, rfl⟩

end Retried

theorem locationInBlock_ok (hash : TransactionHash) (hblock : ∃ blockHash, paqus.blockHash block = .ok blockHash)
    (h : ∀ transaction ∈ transactions, ∃ hash, paqus.codec.transactionHash transaction = .ok hash) :
    ∃ location, locationInBlock paqus hash block transactions = .ok location := by
  induction transactions with
  | nil => exact ⟨none, rfl⟩
  | cons transaction rest ih =>
    obtain ⟨found, hfound⟩ := h transaction (by simp)
    obtain ⟨blockHash, hb⟩ := hblock
    simp only [locationInBlock, hfound, hb]
    split
    · exact ⟨_, rfl⟩
    · exact ih fun other ho => h other (by simp [ho])

theorem canonicalTransactionLocation_ok (encoding : EncodingLaws paqus) (h : LedgerStorable paqus ledger)
    (hash : TransactionHash) :
    ∃ location, canonicalTransactionLocation paqus ledger hash = .ok location := by
  have hblocks : ∀ blocks : List Block, (∀ block ∈ blocks, Storable paqus block) →
      ∃ location, locationInBlocks paqus hash blocks = .ok location := by
    intro blocks hall
    induction blocks with
    | nil => exact ⟨none, rfl⟩
    | cons block rest ih =>
      have hblock := hall block (by simp)
      obtain ⟨location, hl⟩ := locationInBlock_ok hash hblock.hashed
        fun transaction ht => encoding.transaction_hash hblock.structural ht
      cases location with
      | some location => exact ⟨some location, by simp only [locationInBlocks, hl]⟩
      | none =>
        obtain ⟨later, hlater⟩ := ih fun other ho => hall other (by simp [ho])
        exact ⟨later, by simp only [locationInBlocks, hl, hlater]⟩
  exact hblocks _ h

theorem retryRollbackIssueRecord_returns (encoding : EncodingLaws paqus) (hledger : LedgerStorable paqus core.ledger)
    (hissue : Storage.validateRollbackIssue paqus issue none = .ok ()) :
    Returns (Ready paqus core) (fun _ => Ready paqus core) (retryRollbackIssueRecord paqus issue false) := by
  intro node hnode
  obtain ⟨location, hlocation⟩ :=
    canonicalTransactionLocation_ok encoding (hnode.core_eq ▸ hledger) issue.transactionHash
  have hchecked : runIf false (verifyRollbackIssue paqus issue) node = .ok () node := rfl
  have hrun := retryRollbackIssueRecord_eq_ok.mpr
    ⟨node, location, hchecked, hlocation, hissue, hnode.storage.faultless _ le_rfl, rfl, rfl⟩
  have hready := (stable_ready core).retryRollbackIssueRecord_keeps issue false node hnode
  rw [hrun] at hready
  exact ⟨_, _, hrun, hready⟩

theorem reconfirmIssues_returns {blockHash : BlockHash} {issues : List RollbackIssue}
    (h : ∀ issue ∈ issues, Storage.validateRollbackIssue paqus issue none = .ok ()) :
    Returns (Ready paqus core) (fun _ => Ready paqus core) (reconfirmIssues paqus block blockHash issues) := by
  induction issues with
  | nil => exact Returns.pure fun _ h => h
  | cons issue rest ih =>
    have hvalid := (validateRollbackIssue_congr rfl rfl rfl rfl).trans (h issue (by simp))
    exact Returns.bind (saveRollbackIssue_returns hvalid) fun _ =>
      ih fun other ho => h other (by simp [ho])

theorem markRollbackIssuesReconfirmed_returns (encoding : EncodingLaws paqus) (hblock : Storable paqus block) :
    Returns (Ready paqus core) (fun _ => Ready paqus core) (markRollbackIssuesReconfirmed paqus block) := by
  have hmark : ∀ blockHash transactions, (∀ transaction ∈ transactions, transaction ∈ block.transactions) →
      Returns (Ready paqus core) (fun _ => Ready paqus core)
        (markTransactions paqus block blockHash transactions) := by
    intro blockHash transactions hsub
    induction transactions with
    | nil => exact Returns.pure fun _ h => h
    | cons transaction rest ih =>
      obtain ⟨hash, hhash⟩ := encoding.transaction_hash hblock.structural (hsub transaction (by simp))
      refine Returns.bind (Q := fun _ => Ready paqus core) (Returns.liftExcept hhash fun _ h => h) fun _ => ?_
      refine Returns.bind (onStorage_returns (fun _ => .loadRollbackIssues) Storage.loadRollbackIssues_ok)
        fun issues => ?_
      rintro node ⟨hissues, hnode⟩
      refine Returns.bind (R := fun _ => Ready paqus core) (reconfirmIssues_returns fun issue hi => ?_)
        (fun _ => ih fun other ho => hsub other (by simp [ho])) node hnode
      exact hissues issue (List.mem_filter.mp hi).1
  obtain ⟨blockHash, hhash⟩ := hblock.hashed
  exact Returns.bind (Q := fun _ => Ready paqus core) (Returns.liftExcept hhash fun _ h => h) fun _ =>
    hmark _ _ fun _ ht => ht

theorem openIssue_returns {opened : RollbackIssue}
    (hopened : Storage.validateRollbackIssue paqus opened none = .ok ()) :
    Returns (Ready paqus core)
      (fun issue node => Storage.validateRollbackIssue paqus issue none = .ok () ∧ Ready paqus core node)
      (openIssue paqus opened) := by
  refine Returns.bind (onStorage_returns (fun _ => .loadRollbackIssue opened.id)
    (Storage.loadRollbackIssue_ok opened.id)) fun found => ?_
  rintro node ⟨hfound, hnode⟩
  cases found with
  | some existing => exact ⟨existing, node, rfl, hfound existing rfl, hnode⟩
  | none =>
    exact (saveRollbackIssue_returns hopened).bind (fun _ => Returns.pure fun _ h => ⟨hopened, h⟩) node hnode

section Disconnected

include encoding

theorem rollbackIssue_new_ok (hblock : Storable paqus block) (hat : block.transactions[index]? = some transaction)
    (blockHash : BlockHash) (contextId : RollbackProofContextId) (now : Nat) :
    ∃ proof issue, paqus.codec.transactionInclusionProofs block index = .ok proof ∧
      RollbackIssue.new paqus block.height blockHash index transaction contextId proof now = .ok issue ∧
      Storage.validateRollbackIssue paqus issue none = .ok () := by
  obtain ⟨hlt, _⟩ := List.getElem?_eq_some_iff.mp hat
  obtain ⟨proof, hproof, hleaf⟩ := encoding.inclusion_proof hblock.structural hlt
  obtain ⟨hash, hhash⟩ := encoding.transaction_hash hblock.structural (List.mem_of_getElem? hat)
  obtain ⟨id, hid⟩ := encoding.issue_id blockHash hash
  refine ⟨proof, _, hproof, by
    simp only [RollbackIssue.new, hhash, check, hleaf, decide_true, if_true, hid, bind, Except.bind, pure, Except.pure]
    rfl, ?_⟩
  simp [Storage.validateRollbackIssue, hhash, hid, check, bind, Except.bind]

/-- The issue of a transaction can be opened; it is retried, and the later transactions follow. -/
theorem recordTransactions_cons (hblock : Storable paqus block) (contextId : RollbackProofContextId)
    (blockHash : BlockHash) {rest : List SignedProtocolTransaction}
    (hdrop : block.transactions.drop index = transaction :: rest) (node : Node F) :
    block.transactions.drop (index + 1) = rest ∧ ∃ proof opened,
      RollbackIssue.new paqus block.height blockHash index transaction contextId proof
        (node.clock node.clockReads) = .ok opened ∧
      Storage.validateRollbackIssue paqus opened none = .ok () ∧
      recordTransactions paqus contextId block blockHash index (transaction :: rest) node = (do
        let issue ← openIssue paqus opened
        discard (retryRollbackIssueRecord paqus issue false)
        recordTransactions paqus contextId block blockHash (index + 1) rest)
          { node with clockReads := node.clockReads + 1 } := by
  have hat : block.transactions[index]? = some transaction := by
    rw [← List.head?_drop, hdrop]
    rfl
  have hcount := encoding.transaction_count hblock.structural
  obtain ⟨hlt, _⟩ := List.getElem?_eq_some_iff.mp hat
  obtain ⟨proof, opened, hproof, hopened, hvalid⟩ := rollbackIssue_new_ok encoding hblock hat blockHash
    contextId (node.clock node.clockReads)
  refine ⟨?_, proof, opened, hopened, hvalid, ?_⟩
  · rw [← List.tail_drop, hdrop]
    rfl
  · rw [recordTransactions, decide_eq_true (show index ≤ u32Max by omega), ensure_true,
      pure_bind, hproof, liftExcept_ok, pure_bind,
      currentUnixTimestamp_bind, hopened, liftExcept_ok, pure_bind]

theorem recordTransactions_returns (hledger : LedgerStorable paqus core.ledger)
    (hblock : Storable paqus block) (contextId : RollbackProofContextId) (blockHash : BlockHash)
    (hdrop : block.transactions.drop index = transactions) :
    Returns (Ready paqus core) (fun _ => Ready paqus core)
      (recordTransactions paqus contextId block blockHash index transactions) := by
  induction transactions generalizing index with
  | nil => exact Returns.pure fun _ h => h
  | cons transaction rest ih =>
    intro node hnode
    obtain ⟨hnext, _, _, _, hvalid, hrecord⟩ := recordTransactions_cons encoding hblock contextId blockHash hdrop node
    rw [hrecord]
    refine Returns.bind (R := fun _ => Ready paqus core) (openIssue_returns hvalid) (fun found => ?_) _
      ((stable_ready core).clockReads _ hnode)
    rintro node ⟨hfound, hnode⟩
    exact Returns.bind (R := fun _ => Ready paqus core)
      (Returns.discard (retryRollbackIssueRecord_returns encoding hledger hfound)) (fun _ => ih hnext) node hnode

theorem recordDisconnected_returns (hledger : LedgerStorable paqus core.ledger)
    (contextId : RollbackProofContextId) (winningHashes : List BlockHash) {blocks : List Block}
    (hblocks : ∀ block ∈ blocks, Storable paqus block) :
    Returns (Ready paqus core) (fun _ => Ready paqus core)
      (recordDisconnected paqus contextId winningHashes blocks) := by
  induction blocks with
  | nil => exact Returns.pure fun _ h => h
  | cons block rest ih =>
    have hblock := hblocks block (by simp)
    obtain ⟨blockHash, hhash⟩ := hblock.hashed
    unfold recordDisconnected
    refine Returns.bind (Q := fun _ => Ready paqus core) (Returns.liftExcept hhash fun _ h => h) fun blockHash => ?_
    refine Returns.bind (Q := fun _ => Ready paqus core) ?_ fun _ => ih fun other ho =>
      hblocks other (by simp [ho])
    cases winningHashes.contains blockHash with
    | true => exact Returns.pure fun _ h => h
    | false => exact recordTransactions_returns encoding hledger hblock contextId blockHash rfl

end Disconnected

end PaqusNetwork
