import PaqusNetwork.Cache
import PaqusNetwork.Network.Compact
import PaqusNetwork.Storage.Lookups

namespace PaqusNetwork

open Effect Numeric

inductive NodeError
  | consensus (error : ConsensusError)
  | genesis (error : GenesisError)
  | forkChoice (error : ForkChoiceError)
  | ledger (error : LedgerError)
  | mempool (error : MempoolError)
  | storage (error : StorageError)
  | codec (error : CodecError)
  | rollbackProof (error : RollbackProofError)
  | miningExhausted
  | missingGenesisState
  | missingStagedLedger
  | missingBestTip
  | missingCommonAncestor
  | missingForkBranch
  | missingActiveTip
  | missingForkNode
  | missingLedgerBlock
  | missingDifficultyAnchor
  | transactionIndexOverflow
  | missingRollbackProofContext
  | rollbackProofContextMismatch
  | missingDisconnectedBlock
  | rollbackIssueMismatch
  deriving DecidableEq, Repr

def NodeError.display (texts : ErrorTexts) : NodeError → String
  | consensus error => "consensus error: " ++ texts.consensus error
  | genesis error => "genesis error: " ++ texts.genesis error
  | forkChoice error => "fork choice error: " ++ texts.forkChoice error
  | ledger error => "ledger error: " ++ texts.ledger error
  | mempool error => "mempool error: " ++ error.display texts
  | storage error => "storage error: " ++ error.display texts
  | codec error => "canonical encoding error: " ++ texts.codec error
  | rollbackProof error => "rollback proof error: " ++ error.text
  | miningExhausted => "mining attempt budget was exhausted"
  | missingGenesisState => "node cannot reorg without the genesis account state"
  | missingStagedLedger => "validated active-tip block is missing its staged ledger"
  | missingBestTip => "fork graph has no selected best tip"
  | missingCommonAncestor => "fork branches do not have a known common ancestor"
  | missingForkBranch => "fork graph cannot construct the requested branch"
  | missingActiveTip => "active ledger tip is missing"
  | missingForkNode => "required block is missing from fork graph"
  | missingLedgerBlock => "required block is missing from active ledger"
  | missingDifficultyAnchor => "WBDA difficulty weight anchor is missing"
  | transactionIndexOverflow => "block transaction index exceeds supported range"
  | missingRollbackProofContext => "rollback proof context was not found"
  | rollbackProofContextMismatch => "rollback proof branches do not share a valid ancestor"
  | missingDisconnectedBlock => "rollback proof does not contain the disconnected block"
  | rollbackIssueMismatch => "rollback issue does not match its verified proof"

def maxOrphanBlocks : Nat := 1024

def maxOrphanHeightDistance : Nat := 512

def orphanBlockTtlSecs : Nat := 10 * 60

def missingParentRetrySecs : Nat := 5

def maxPendingCompactBlocks : Nat := 64

structure OrphanBlock where
  block : Block
  receivedAt : Nat
  deriving DecidableEq, Repr

/-- The fields of the node that block validation and the choice of the chain read. -/
structure Core (F : Type) where
  ledger : Ledger
  consensus : Consensus
  forkChoice : F
  genesisAccounts : BTreeMap Address Account

/-- The fields of the node that the application of a block to its parent changes. -/
structure Main (F : Type) extends Core F where
  mempool : Mempool
  storage : Storage
  cache : CoreCache

/-- The clock reading number `clockReads` returns the Unix time `clock clockReads`. `connections` is a history
variable: the calls of `apply_known_parent_block`, each with the state it found. -/
structure Node (F : Type) extends Main F where
  orphanBlocks : BTreeMap BlockHash OrphanBlock
  orphanChildrenByParent : BTreeMap BlockHash (List BlockHash)
  missingParentRequests : List BlockHash
  missingParentRequestSet : BTreeMap BlockHash Unit
  missingParentRetryAt : BTreeMap BlockHash Nat
  pendingCompactBlocks : BTreeMap BlockHash CompactBlock
  snapshotCache : Option (BlockHash × List UInt8)
  blockValidationFailuresTotal : Nat
  reorgsTotal : Nat
  clock : Nat → Nat
  clockReads : Nat
  connections : List (Main F × Block)

abbrev NodeM (F : Type) := EStateM NodeError (Node F)

variable {F : Type} (paqus : Paqus F)

def currentUnixTimestamp : NodeM F Nat := do
  let node ← get
  modify fun node => { node with clockReads := node.clockReads + 1 }
  return node.clock node.clockReads

def onStorage {α : Type} (program : StorageM α) : NodeM F α :=
  focus (fun node => node.storage) (fun storage node => { node with storage }) .storage program

def onMempool {α : Type} (program : EStateM MempoolError Mempool α) : NodeM F α :=
  focus (fun node => node.mempool) (fun mempool node => { node with mempool }) .mempool program

def submitProtocolTransaction (transaction : SignedProtocolTransaction) :
    NodeM F TransactionHash := do
  let ledger := (← get).ledger
  let now ← currentUnixTimestamp
  onMempool (Mempool.insertValidated paqus now ledger transaction)

def submitTransaction (transaction : SignedBatchTransfer) : NodeM F TransactionHash :=
  submitProtocolTransaction paqus (.batchTransfer transaction)

def submitQCashTransaction (transaction : SignedQCashTransaction) : NodeM F TransactionHash :=
  submitProtocolTransaction paqus (.qcash transaction)

def stageCompactBlock (blockHash : BlockHash) (compact : CompactBlock) : NodeM F Unit := do
  modify fun node =>
    let pending := node.pendingCompactBlocks
    let kept := if pending.size ≥ maxPendingCompactBlocks then
        match pending.minKey? with
        | some oldest => pending.erase oldest
        | none => pending
      else pending
    { node with pendingCompactBlocks := kept.insert blockHash compact }

def takeCompactBlock (blockHash : BlockHash) : NodeM F (Option CompactBlock) := do
  let taken := (← get).pendingCompactBlocks[blockHash]?
  modify fun node => { node with pendingCompactBlocks := node.pendingCompactBlocks.erase blockHash }
  return taken

def ensureExpectedGenesisHash (genesis : Block) : Except NodeError Unit :=
  match paqus.blockHash genesis with
  | .error error => .error (.codec error)
  | .ok found =>
    if found ≠ paqus.rules.genesisHash then
      .error (.genesis (.hashMismatch paqus.rules.genesisHash found))
    else .ok ()

def ensureExpectedGenesis (ledger : Ledger) : Except NodeError Unit :=
  match ledger.block 0 with
  | none => .error .missingGenesisState
  | some genesis => ensureExpectedGenesisHash paqus genesis

def extendsActiveTip (ledger : Ledger) (block : Block) : Bool :=
  match ledger.tipHash with
  | some tipHash => block.previousHash == tipHash
  | none => block.height == 0

def applyBranch (ledger : Ledger) : List Block → Except LedgerError Ledger
  | [] => .ok ledger
  | block :: rest =>
    match paqus.ledger.applyBlock ledger block with
    | .error error => .error error
    | .ok next => applyBranch next rest

namespace Core

def ledgerForBranchTip (core : Core F) (tip : BlockHash) : Except NodeError Ledger := do
  let genesisHash := (paqus.fork.ancestorHashes core.forkChoice tip).getLast?.getD tip
  let some genesis := paqus.fork.get core.forkChoice genesisHash
    | throw .missingForkNode
  let ledger ← (paqus.ledger.fromAccountsAndChain core.genesisAccounts Chain.new).mapError .ledger
  let chain ← (paqus.ledger.chainInsertBlock ledger.chain genesis.block).mapError .ledger
  let some branch := paqus.fork.branchFromAncestor core.forkChoice genesisHash tip
    | throw .missingForkBranch
  (applyBranch paqus { ledger with chain } branch).mapError .ledger

def headersToTip (core : Core F) (tip : BlockHash) : Except NodeError (List BlockHeader) :=
  (paqus.fork.ancestorHashes core.forkChoice tip).reverse.mapM fun hash =>
    match paqus.fork.get core.forkChoice hash with
    | some node => .ok node.block.header
    | none => .error .missingForkNode

def commonAncestor (core : Core F) (oldTip : Option BlockHash) (newTip : BlockHash) :
    Option BlockHash := do
  let oldTip ← oldTip
  let oldAncestors := paqus.fork.ancestorHashes core.forkChoice oldTip
  (paqus.fork.ancestorHashes core.forkChoice newTip).find? (oldAncestors.contains ·)

def validateCheckpoint (core : Core F) (block : Block) : Except NodeError Unit :=
  match core.ledger.chain.checkpointHeight with
  | none => .ok ()
  | some checkpointHeight =>
    if block.height ≤ checkpointHeight then .error .missingCommonAncestor
    else match paqus.fork.ancestorHashAtHeight core.forkChoice block.previousHash checkpointHeight with
      | none => .error .missingCommonAncestor
      | some branchCheckpoint =>
        match core.ledger.chain.headers[checkpointHeight]? with
        | none => .error .missingCommonAncestor
        | some header =>
          match paqus.codec.headerHash header with
          | .error error => .error (.codec error)
          | .ok canonicalCheckpoint =>
            if branchCheckpoint ≠ canonicalCheckpoint then .error .missingCommonAncestor
            else .ok ()

def validateBlockForKnownParent (core : Core F) (block : Block) : Except NodeError Unit := do
  core.validateCheckpoint paqus block
  if block.height = 0 then
    (paqus.rules.validateGenesisBlock core.consensus block).mapError .consensus
    ensureExpectedGenesisHash paqus block
  else
    match paqus.fork.get core.forkChoice block.previousHash with
    | none => throw (.forkChoice .missingParent)
    | some parent =>
      (paqus.rules.validateNextBlockWithTip core.consensus block parent.block).mapError .consensus

end Core

def validateCanonicalStateRoot (ledger : Ledger) (block : Block) : Except NodeError Unit :=
  match paqus.ledger.stateRootAfterBlock ledger block with
  | .error error => .error (.ledger error)
  | .ok expectedStateRoot =>
    if block.stateRoot ≠ expectedStateRoot then .error (.ledger .invalidStateRoot)
    else if !block.isGenesis && block.stateRoot == 0 then .error (.ledger .invalidStateRoot)
    else .ok ()

/-- The ledger after the block when it extends the active tip, nothing for a side block. -/
def Core.validateBlockStateForKnownParent (core : Core F) (block : Block) :
    Except NodeError (Option Ledger) := do
  if extendsActiveTip core.ledger block then
    validateCanonicalStateRoot paqus core.ledger block
    let ledger ← (paqus.ledger.executeBlock core.ledger block).mapError .ledger
    return some ledger
  else
    let ledger ← core.ledgerForBranchTip paqus block.previousHash
    validateCanonicalStateRoot paqus ledger block
    return none

/-- What a reorganisation computes before it touches the state. -/
structure ReorgPlan where
  bestTip : BlockHash
  ancestor : BlockHash
  proofContext : RollbackProofContext

def Core.planReorg (core : Core F) : Except NodeError ReorgPlan := do
  let some best := paqus.fork.bestTip core.forkChoice
    | throw .missingBestTip
  let some ancestor := core.commonAncestor paqus core.ledger.tipHash best.hash
    | throw .missingCommonAncestor
  check (.ledger .finalityViolation) (!paqus.fork.reorgCrossesFinalityBoundary core.ledger core.forkChoice ancestor)
  let some _winningBranch := paqus.fork.branchFromAncestor core.forkChoice ancestor best.hash
    | throw .missingForkBranch
  let some oldTip := core.ledger.tipHash
    | throw .missingActiveTip
  let losingHeaders ← core.headersToTip paqus oldTip
  let canonicalHeaders ← core.headersToTip paqus best.hash
  let proofContext ← (RollbackProofContext.new paqus losingHeaders canonicalHeaders ancestor).mapError .codec
  return ⟨best.hash, ancestor, proofContext⟩

variable {address : Address} {transaction : SignedProtocolTransaction}

def rollbackIssuesForAccount (address : Address) : NodeM F (List RollbackIssue) := do
  let issues ← onStorage (Storage.loadRollbackIssues paqus)
  return issues.filter (·.affectedAccounts.contains address)

/-- Who recovers the coins of a lost redemption. -/
def SignedProtocolTransaction.claimant? : SignedProtocolTransaction → Option Address
  | .qcash ⟨_, _, .recoverRedeem claimant _, _⟩ => some claimant
  | _ => none

theorem mem_affectedAccounts : address ∈ affectedAccounts transaction ↔
    address = transaction.signer ∨
      (address ∈ transactionRecipients transaction ∧ transaction.claimant? = none) := by
  have hkeys : ∀ keys : List Address, address ∈ (keys.foldl (fun set key => set.insert key ())
      (∅ : BTreeMap Address Unit)).keys ↔ address ∈ keys := by
    intro keys
    rw [Std.ExtTreeMap.mem_keys, Std.ExtTreeMap.mem_iff_isSome_getElem?, OrderedMap.getElem?_foldl_insert]
    split <;> simp_all
  unfold affectedAccounts
  rw [hkeys, List.mem_cons]
  rcases transaction with transfer | ⟨signer, lastState, _ | _ | _, authorization⟩
  all_goals simp [transactionRecipients, SignedProtocolTransaction.claimant?]

theorem mem_roles : (∃ sent, (address, sent) ∈ transactionAddresses transaction) ↔
    address = transaction.signer ∨ address ∈ transactionRecipients transaction := by
  simp only [mem_transactionAddresses, roleOf]
  by_cases hsigner : transaction.signer = address
  · simp [hsigner]
  · by_cases hmem : address ∈ transactionRecipients transaction <;> simp [hsigner, hmem, Ne.symm hsigner]

theorem mem_recipients_claimant (h : transaction.claimant? ≠ none) :
    address ∈ transactionRecipients transaction ↔ transaction.claimant? = some address := by
  rcases transaction with transfer | ⟨signer, lastState, _ | _ | ⟨claimant, _⟩, authorization⟩
  case qcash.recoverRedeem => simp [transactionRecipients, SignedProtocolTransaction.claimant?, eq_comm]
  all_goals exact absurd rfl h

/-- Both extractions name the same accounts, and each of these finds the issue of the transaction, if and only
if nobody but the signer recovers coins with it. -/
theorem affectedAccounts_indexed_iff (transaction : SignedProtocolTransaction) :
    ((∀ address, address ∈ affectedAccounts transaction ↔ ∃ sent, (address, sent) ∈ transactionAddresses transaction) ∧
      ∀ node issues next issue address sent,
        onStorage (Storage.loadRollbackIssues paqus) node = .ok issues next → issue ∈ issues →
        issue.affectedAccounts = affectedAccounts transaction →
        (address, sent) ∈ transactionAddresses transaction →
          ∃ found, rollbackIssuesForAccount paqus address node = .ok found next ∧ issue ∈ found) ↔
      ∀ claimant, transaction.claimant? = some claimant → claimant = transaction.signer := by
  have hsame : (∀ address, address ∈ affectedAccounts transaction ↔
      ∃ sent, (address, sent) ∈ transactionAddresses transaction) ↔
      ∀ claimant, transaction.claimant? = some claimant → claimant = transaction.signer := by
    simp only [mem_roles, mem_affectedAccounts]
    by_cases hnone : transaction.claimant? = none
    · simp [hnone]
    · simp only [hnone, and_false, or_false, mem_recipients_claimant hnone]
      exact forall_congr' fun address => ⟨fun h hclaimant => h.mpr (.inr hclaimant),
        fun h => ⟨.inl, fun hrole => hrole.elim id h⟩⟩
  refine ⟨fun h => hsame.mp h.1, fun h => ⟨hsame.mpr h, ?_⟩⟩
  intro node issues next issue address sent hload hmem haccounts hrole
  refine ⟨issues.filter (·.affectedAccounts.contains address), ?_, List.mem_filter.mpr ⟨hmem, ?_⟩⟩
  · rw [rollbackIssuesForAccount, bind_ok hload]
    rfl
  · rw [List.contains_iff_mem, haccounts]
    exact (hsame.mpr h address).mpr ⟨sent, hrole⟩

namespace Reference

def recovery : SignedProtocolTransaction := .qcash ⟨1, 0, .recoverRedeem 5 [77], [501]⟩

theorem recovery_claimant_unaffected : (5, false) ∈ transactionAddresses recovery ∧ 5 ∉ affectedAccounts recovery := by
  refine ⟨by decide, fun h => ?_⟩
  rcases mem_affectedAccounts.mp h with hsigner | ⟨_, hnone⟩
  · cases hsigner
  · cases hnone

end Reference

end PaqusNetwork
