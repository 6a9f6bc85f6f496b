import PaqusNetwork.Node.State

namespace PaqusNetwork

open Effect Numeric

variable {F : Type} (paqus : Paqus F)

def sharedCount : List BlockHeader → List BlockHeader → Nat
  | left :: lefts, right :: rights => if left = right then sharedCount lefts rights + 1 else 0
  | _, _ => 0

def rollbackProofBundle (issue : RollbackIssue) : NodeM F RollbackProofBundle := do
  let some context ← onStorage (Storage.loadRollbackProofContext paqus issue.proofContextId)
    | throw .missingRollbackProofContext
  let node ← get
  let currentCanonicalHeaders ← liftExcept id (node.ledger.tipHash.elim (.ok context.canonicalHeaders)
    fun tip => node.toCore.headersToTip paqus tip)
  let shared := sharedCount context.losingHeaders currentCanonicalHeaders
  let canonicalHeaders := if 0 < shared ∧ shared < context.losingHeaders.length ∧
      shared < currentCanonicalHeaders.length then currentCanonicalHeaders
    else context.canonicalHeaders
  ensure .rollbackProofContextMismatch (sharedCount context.losingHeaders canonicalHeaders != 0)
  let some last := canonicalHeaders[sharedCount context.losingHeaders canonicalHeaders - 1]?
    | throw .rollbackProofContextMismatch
  let commonAncestor ← liftExcept .codec (paqus.codec.headerHash last)
  let some disconnectedBlockHeader := context.losingHeaders.find? fun header =>
      match paqus.codec.headerHash header with
      | .ok hash => hash == issue.disconnectedBlockHash
      | .error _ => false
    | throw .missingDisconnectedBlock
  return {
    version := paqus.rules.rollbackProofVersion, transaction := issue.transaction,
    disconnectedBlockHeader, transactionProof := issue.transactionProof,
    losingHeaders := context.losingHeaders, canonicalHeaders, commonAncestor }

/-- The first canonical block that holds a transaction with the hash; a transaction that cannot be hashed ends
the search. -/
def locationInBlock (transactionHash : TransactionHash) (block : Block) :
    List SignedProtocolTransaction → Except CodecError (Option (Nat × BlockHash))
  | [] => .ok none
  | transaction :: rest =>
    match paqus.codec.transactionHash transaction with
    | .error error => .error error
    | .ok hash =>
      if hash = transactionHash then
        match paqus.blockHash block with
        | .error error => .error error
        | .ok blockHash => .ok (some (block.height, blockHash))
      else locationInBlock transactionHash block rest

def locationInBlocks (transactionHash : TransactionHash) : List Block → Except CodecError (Option (Nat × BlockHash))
  | [] => .ok none
  | block :: rest =>
    match locationInBlock paqus transactionHash block block.transactions with
    | .error error => .error error
    | .ok (some location) => .ok (some location)
    | .ok none => locationInBlocks transactionHash rest

def canonicalTransactionLocation (ledger : Ledger) (transactionHash : TransactionHash) :
    Except CodecError (Option (Nat × BlockHash)) :=
  locationInBlocks paqus transactionHash ledger.storedBlocks

def verifyRollbackIssue (issue : RollbackIssue) : NodeM F Unit := do
  let bundle ← rollbackProofBundle paqus issue
  let verified ← liftExcept .rollbackProof (paqus.rules.verifyRollbackProof bundle)
  ensure .rollbackIssueMismatch (verified.transactionHash == issue.transactionHash &&
    bundle.transaction == issue.transaction &&
    verified.disconnectedBlockHash == issue.disconnectedBlockHash)

def RollbackIssue.resubmitted (issue : RollbackIssue) (result : Except NodeError TransactionHash) :
    RollbackIssue :=
  match result with
  | .ok _ => { issue with status := .requeued, lastError := none }
  | .error (.mempool .duplicateTransaction) => { issue with status := .requeued, lastError := none }
  | .error error =>
    { issue with status := .conflict, lastError := some (error.display paqus.texts) }

/-- The source updates the issue in place; here the updated issue is returned. -/
def retryRollbackIssueRecord (issue : RollbackIssue) (verifyProof : Bool) :
    NodeM F RollbackIssue := do
  runIf verifyProof (verifyRollbackIssue paqus issue)
  let issue := { issue with retryAttempts := u32SaturatingAdd issue.retryAttempts 1 }
  match ← liftExcept .codec (canonicalTransactionLocation paqus (← get).ledger issue.transactionHash) with
  | some (blockHeight, blockHash) =>
    let issue := { issue with status := .reconfirmed blockHeight blockHash, lastError := none }
    onStorage (Storage.saveRollbackIssue paqus issue)
    return issue
  | none =>
    let result ← attempt (submitProtocolTransaction paqus issue.transaction)
    let issue := issue.resubmitted paqus result
    onStorage (Storage.saveRollbackIssue paqus issue)
    return issue

def retryRollbackIssue (id : RollbackIssueId) : NodeM F (Option RollbackIssue) := do
  match ← onStorage (Storage.loadRollbackIssue paqus id) with
  | none => return none
  | some issue =>
    if issue.isReconfirmed then
      return some issue
    let retried ← retryRollbackIssueRecord paqus issue true
    return some retried

def reconfirmIssues (block : Block) (blockHash : BlockHash) : List RollbackIssue → NodeM F Unit
  | [] => return ()
  | issue :: rest => do
    onStorage (Storage.saveRollbackIssue paqus
      { issue with status := .reconfirmed block.height blockHash, lastError := none })
    reconfirmIssues block blockHash rest

def markTransactions (block : Block) (blockHash : BlockHash) : List SignedProtocolTransaction → NodeM F Unit
  | [] => return ()
  | transaction :: rest => do
    let transactionHash ← liftExcept .codec (paqus.codec.transactionHash transaction)
    let issues ← onStorage (Storage.loadRollbackIssues paqus)
    reconfirmIssues paqus block blockHash
      (issues.filter fun issue => issue.transactionHash == transactionHash && !issue.isReconfirmed)
    markTransactions block blockHash rest

def markRollbackIssuesReconfirmed (block : Block) : NodeM F Unit := do
  let blockHash ← liftExcept .codec (paqus.blockHash block)
  markTransactions paqus block blockHash block.transactions

/-- The stored issue with the same id, or else the new one, which is then stored. -/
def openIssue (opened : RollbackIssue) : NodeM F RollbackIssue := do
  match ← onStorage (Storage.loadRollbackIssue paqus opened.id) with
  | some existing => return existing
  | none =>
    onStorage (Storage.saveRollbackIssue paqus opened)
    return opened

/-- Open, or find, the issue of each transaction from the given position on, and try to put the transaction
back into the pool. -/
def recordTransactions (contextId : RollbackProofContextId) (block : Block) (blockHash : BlockHash) :
    Nat → List SignedProtocolTransaction → NodeM F Unit
  | _, [] => return ()
  | index, transaction :: rest => do
    ensure .transactionIndexOverflow (index ≤ u32Max)
    let proof ← liftExcept .codec (paqus.codec.transactionInclusionProofs block index)
    let now ← currentUnixTimestamp
    let opened ← liftExcept .codec
      (RollbackIssue.new paqus block.height blockHash index transaction contextId proof now)
    let issue ← openIssue paqus opened
    discard (retryRollbackIssueRecord paqus issue false)
    recordTransactions contextId block blockHash (index + 1) rest

def recordDisconnected (contextId : RollbackProofContextId) (winningHashes : List BlockHash) : List Block → NodeM F Unit
  | [] => return ()
  | block :: rest => do
    let blockHash ← liftExcept .codec (paqus.blockHash block)
    runIf (!winningHashes.contains blockHash) (recordTransactions paqus contextId block blockHash 0 block.transactions)
    recordDisconnected contextId winningHashes rest

def pruneFinalizedForks : NodeM F Nat := do
  let node ← get
  match node.ledger.tipHeight with
  | none => return 0
  | some tipHeight =>
    match node.ledger.block (tipHeight - paqus.rules.finalityDepth) with
    | none => return 0
    | some finalizedBlock =>
      let hash ← liftExcept .codec (paqus.blockHash finalizedBlock)
      let pruned ← liftExcept .forkChoice (paqus.fork.pruneFinalized node.forkChoice hash)
      modify fun node => { node with forkChoice := pruned.2 }
      return pruned.1

def switchToBestTip (oldBlocks : List Block) (plan : ReorgPlan) : NodeM F Unit := do
  let ledger ← liftExcept id ((← get).toCore.ledgerForBranchTip paqus plan.bestTip)
  modify fun node => { node with ledger, snapshotCache := none }
  let cache ← liftExcept .codec (CoreCache.fromLedger paqus ledger)
  modify fun node => { node with cache }
  onStorage (Storage.saveLedger paqus ledger)
  let winningHashes := paqus.fork.ancestorHashes (← get).forkChoice plan.bestTip
  recordDisconnected paqus plan.proofContext.id winningHashes oldBlocks
  modify fun node => { node with reorgsTotal := saturatingAdd node.reorgsTotal 1 }
  discard (pruneFinalizedForks paqus)

def reorgToBestTip : NodeM F Unit := do
  let node ← get
  let plan ← liftExcept id (node.toCore.planReorg paqus)
  onStorage (Storage.saveRollbackProofContext paqus plan.proofContext)
  switchToBestTip paqus node.ledger.storedBlocks plan

def cacheAccount (ledger : Ledger) (cache : CoreCache) (address : Address) : CoreCache :=
  match ledger.accounts[address]? with
  | some account => cache.insertAccount account
  | none => cache

def cachedAddresses : SignedProtocolTransaction → List Address
  | .batchTransfer transaction => transaction.sender :: transaction.outputs.filterMap (·.toTarget.address?)
  | .qcash _ => []

def cacheBlockAccounts (ledger : Ledger) (block : Block) (cache : CoreCache) : CoreCache :=
  (block.transactions.flatMap cachedAddresses ++ [paqus.rules.minerAddress block]).foldl (cacheAccount ledger) cache

def recordGenesisAccounts (accounts : BTreeMap Address Account) : NodeM F Unit := do
  modify fun node => { node with genesisAccounts := accounts }
  onStorage (Storage.saveGenesisAccounts accounts)

def extendActiveTip (block : Block) (activeStaged : Option Ledger) : NodeM F Unit := do
  let ledger ← orThrow .missingStagedLedger activeStaged
  modify fun node => { node with ledger, snapshotCache := none }
  runIf block.isGenesis (recordGenesisAccounts ledger.accounts)
  onMempool (Mempool.removeConfirmed paqus block)
  markRollbackIssuesReconfirmed paqus block
  let cache ← liftExcept .codec ((← get).cache.insertBlock paqus block)
  modify fun node => { node with cache := cacheBlockAccounts paqus ledger block cache }
  onStorage (Storage.saveLedger paqus ledger)
  discard (pruneFinalizedForks paqus)

def settleInserted (block : Block) (blockHash : BlockHash) (activeStaged : Option Ledger) :
    NodeM F Unit := do
  let node ← get
  if (paqus.fork.bestTip node.forkChoice).map (·.hash) ≠ some blockHash then
    onStorage (Storage.saveSideBlock paqus block)
  else if extendsActiveTip node.ledger block then
    extendActiveTip paqus block activeStaged
  else
    reorgToBestTip paqus

def connectBlock (block : Block) : NodeM F Unit := do
  let node ← get
  liftExcept id (node.toCore.validateBlockForKnownParent paqus block)
  let activeStaged ← liftExcept id (node.toCore.validateBlockStateForKnownParent paqus block)
  let inserted ← liftExcept .forkChoice (paqus.fork.insertBlock node.forkChoice block)
  modify fun node => { node with forkChoice := inserted.2 }
  settleInserted paqus block inserted.1 activeStaged

def Node.noted (node : Node F) (block : Block) : Node F :=
  { node with connections := node.connections ++ [(node.toMain, block)] }

/-- `apply_known_parent_block`, which the history variable records. -/
def applyKnownParentBlock (block : Block) : NodeM F Unit := do
  modify (·.noted block)
  connectBlock paqus block

theorem applyKnownParentBlock_eq (block : Block) (node : Node F) :
    applyKnownParentBlock paqus block node = connectBlock paqus block (node.noted block) := modify_bind

def recordSwitch (oldBlocks : List Block) (plan : ReorgPlan) (ledger : Ledger) : NodeM F Unit := do
  let cache ← liftExcept .codec (CoreCache.fromLedger paqus ledger)
  modify fun node => { node with cache }
  onStorage (Storage.saveLedger paqus ledger)
  let winningHashes := paqus.fork.ancestorHashes (← get).forkChoice plan.bestTip
  recordDisconnected paqus plan.proofContext.id winningHashes oldBlocks
  modify fun node => { node with reorgsTotal := saturatingAdd node.reorgsTotal 1 }
  discard (pruneFinalizedForks paqus)

def recordExtension (block : Block) (ledger : Ledger) : NodeM F Unit := do
  let cache ← liftExcept .codec ((← get).cache.insertBlock paqus block)
  modify fun node => { node with cache := cacheBlockAccounts paqus ledger block cache }
  onStorage (Storage.saveLedger paqus ledger)
  discard (pruneFinalizedForks paqus)

def finishExtension (block : Block) (ledger : Ledger) : NodeM F Unit := do
  runIf block.isGenesis (recordGenesisAccounts ledger.accounts)
  onMempool (Mempool.removeConfirmed paqus block)
  markRollbackIssuesReconfirmed paqus block
  recordExtension paqus block ledger

theorem extendActiveTip_some (block : Block) (ledger : Ledger) (node : Node F) :
    extendActiveTip paqus block (some ledger) node =
      finishExtension paqus block ledger { node with ledger, snapshotCache := none } :=
  rfl

section Switch

variable {node : Node F} {oldBlocks : List Block} {plan : ReorgPlan}

theorem switchToBestTip_of_error {error : NodeError}
    (h : node.toCore.ledgerForBranchTip paqus plan.bestTip = .error error) :
    switchToBestTip paqus oldBlocks plan node = .error error node := by
  unfold switchToBestTip
  rw [get_bind, h]
  rfl

theorem switchToBestTip_of_ledger {ledger : Ledger}
    (h : node.toCore.ledgerForBranchTip paqus plan.bestTip = .ok ledger) :
    switchToBestTip paqus oldBlocks plan node =
      recordSwitch paqus oldBlocks plan ledger { node with ledger, snapshotCache := none } := by
  unfold switchToBestTip
  rw [get_bind, h]
  rfl

theorem reorgToBestTip_of_ledger {storage : Storage} {ledger : Ledger} (hplan : node.toCore.planReorg paqus = .ok plan)
    (hsaved : Storage.saveRollbackProofContext paqus plan.proofContext node.storage = .ok () storage)
    (hledger : node.toCore.ledgerForBranchTip paqus plan.bestTip = .ok ledger) :
    reorgToBestTip paqus node = recordSwitch paqus node.ledger.storedBlocks plan ledger
      { node with storage, ledger, snapshotCache := none } := by
  have hsave : (onStorage (Storage.saveRollbackProofContext paqus plan.proofContext) : NodeM F Unit) node =
      .ok () { node with storage } := by
    simp only [onStorage, focus, hsaved]
  unfold reorgToBestTip
  rw [get_bind, hplan, liftExcept_ok, pure_bind, bind_ok hsave]
  exact switchToBestTip_of_ledger paqus hledger

end Switch

/-- The outcomes of a reorganisation. -/
inductive ReorgCase (node : Node F) : EStateM.Result NodeError (Node F) Unit → Prop
  | unplanned (error : NodeError) : ReorgCase node (.error error node)
  | stored (plan : ReorgPlan) (error : NodeError) : ReorgCase node (.error error { node with
      storage := state (Storage.saveRollbackProofContext paqus plan.proofContext node.storage) })
  | switched {plan : ReorgPlan} {storage : Storage} {ledger : Ledger}
      (planned : node.toCore.planReorg paqus = .ok plan)
      (saved : Storage.saveRollbackProofContext paqus plan.proofContext node.storage = .ok () storage)
      (rebuilt : node.toCore.ledgerForBranchTip paqus plan.bestTip = .ok ledger) :
      ReorgCase node (recordSwitch paqus node.ledger.storedBlocks plan ledger
        { node with storage, ledger, snapshotCache := none })

theorem reorgToBestTip_case (node : Node F) : ReorgCase paqus node (reorgToBestTip paqus node) := by
  cases hplan : node.toCore.planReorg paqus with
  | error error =>
    unfold reorgToBestTip
    rw [get_bind, hplan]
    exact .unplanned error
  | ok plan =>
    have hstored := @ReorgCase.stored F paqus node plan
    cases hsave : Storage.saveRollbackProofContext paqus plan.proofContext node.storage with
    | error error storage =>
      rw [hsave] at hstored
      unfold reorgToBestTip
      rw [get_bind, hplan, liftExcept_ok, pure_bind, bind_error (show (onStorage _ : NodeM F Unit) node =
        .error (.storage error) { node with storage } by simp only [onStorage, focus, hsave])]
      exact hstored _
    | ok _ storage =>
      cases hledger : node.toCore.ledgerForBranchTip paqus plan.bestTip with
      | error error =>
        rw [hsave] at hstored
        unfold reorgToBestTip
        rw [get_bind, hplan, liftExcept_ok, pure_bind, bind_ok (show (onStorage _ : NodeM F Unit) node =
          .ok () { node with storage } by simp only [onStorage, focus, hsave]),
          show switchToBestTip paqus _ plan { node with storage } = _ from switchToBestTip_of_error paqus hledger]
        exact hstored error
      | ok ledger =>
        rw [reorgToBestTip_of_ledger paqus hplan hsave hledger]
        exact .switched hplan hsave hledger

end PaqusNetwork
