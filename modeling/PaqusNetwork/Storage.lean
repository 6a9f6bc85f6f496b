import PaqusNetwork.Numeric
import PaqusNetwork.Recovery
import Mathlib.Data.List.Sort

namespace PaqusNetwork

open Effect Numeric

inductive StorageError
  | database (text : String)
  | io (text : String)
  | serialization (text : String)
  | codec (error : CodecError)
  | integrity (message : String)
  | missingStorageVersion
  | unsupportedStorageVersion (expected found : Nat)
  deriving DecidableEq, Repr

def StorageError.display (texts : ErrorTexts) : StorageError → String
  | database text => "storage database error: " ++ text
  | io text => "storage io error: " ++ text
  | serialization text => "storage serialization error: " ++ text
  | codec error => "canonical encoding error: " ++ texts.codec error
  | integrity message => "storage integrity error: " ++ message
  | missingStorageVersion => "storage version is missing from existing database"
  | unsupportedStorageVersion expected found =>
    "unsupported storage version: expected " ++ toString expected ++ ", found " ++ toString found

structure StoredProtocolState where
  qcashUtxos : QCashUtxoSet
  eventsByBlock : BTreeMap BlockHash (List ProtocolEvent)

/-- The tables that the node reads back, with decoded values; the database call number `n` fails when `faults
n` is an error. -/
structure Storage where
  blocksByHeight : BTreeMap Nat Block
  blocksByHash : BTreeMap BlockHash Block
  headersByHeight : BTreeMap Nat BlockHeader
  accounts : BTreeMap Address Account
  genesisAccounts : Option (BTreeMap Address Account)
  protocolState : Option StoredProtocolState
  rollbackIssues : BTreeMap RollbackIssueId RollbackIssue
  rollbackProofContexts : BTreeMap RollbackProofContextId RollbackProofContext
  tip : Option (Nat × BlockHash)
  checkpointHeight : Option Nat
  faults : Nat → Option StorageError
  calls : Nat

abbrev StorageM := EStateM StorageError Storage

namespace Storage

def empty (faults : Nat → Option StorageError) : Storage := ⟨∅, ∅, ∅, ∅, none, none, ∅, ∅, none, none, faults, 0⟩

def databaseCall : StorageM Unit := do
  let storage ← get
  modify fun storage => { storage with calls := storage.calls + 1 }
  match storage.faults storage.calls with
  | some error => throw error
  | none => return ()

variable {F : Type} (paqus : Paqus F)

def validateBlockForStorage (block : Block) : Except StorageError Unit :=
  if paqus.rules.validateStructure block then .ok ()
  else .error (.integrity "refusing to store an invalid block")

/-- What storing a block checks: its structure, its encoding and its hash. -/
def storedHash (block : Block) : Except StorageError BlockHash := do
  validateBlockForStorage paqus block
  discard ((paqus.codec.blockBytes block).mapError .codec)
  (paqus.blockHash block).mapError .codec

def saveSideBlock (block : Block) : StorageM Unit := do
  let hash ← liftExcept id (storedHash paqus block)
  databaseCall
  modify fun storage => { storage with blocksByHash := storage.blocksByHash.insert hash block }

def saveGenesisAccounts (accounts : BTreeMap Address Account) : StorageM Unit := do
  databaseCall
  modify fun storage => { storage with genesisAccounts := some accounts }

def loadGenesisAccounts : StorageM (Option (BTreeMap Address Account)) := do
  databaseCall
  return (← get).genesisAccounts

def loadTip : StorageM (Option (Nat × BlockHash)) := do
  databaseCall
  return (← get).tip

def loadBlockByHeight (height : Nat) : StorageM (Option Block) := do
  databaseCall
  match (← get).blocksByHeight[height]? with
  | none => return none
  | some block =>
    ensure (.integrity "stored block height does not match height key") (block.height == height)
    return some block

def loadBlocksByHash : StorageM (List Block) := do
  databaseCall
  return (← get).blocksByHash.toList.map Prod.snd

def validateRollbackIssue (issue : RollbackIssue) (expectedId : Option RollbackIssueId) :
    Except StorageError Unit := do
  let transactionHash ← (paqus.codec.transactionHash issue.transaction).mapError .codec
  let id ← (paqus.codec.rollbackIssueId issue.disconnectedBlockHash transactionHash).mapError .codec
  check (.integrity "stored rollback issue transaction identity is invalid")
    (issue.transactionHash == transactionHash && issue.id == id && expectedId.all (· == id))

def saveRollbackIssue (issue : RollbackIssue) : StorageM Unit := do
  liftExcept id (validateRollbackIssue paqus issue none)
  databaseCall
  modify fun storage => { storage with
    rollbackIssues := storage.rollbackIssues.insert issue.id issue }

def loadRollbackIssue (id : RollbackIssueId) : StorageM (Option RollbackIssue) := do
  databaseCall
  match (← get).rollbackIssues[id]? with
  | none => return none
  | some issue =>
    liftExcept (fun error => error) (validateRollbackIssue paqus issue (some id))
    return some issue

/-- The order of `sort_by_key(|issue| (height, index, id))`. -/
def issueLe (left right : RollbackIssue) : Prop :=
  left.disconnectedBlockHeight < right.disconnectedBlockHeight ∨
    (left.disconnectedBlockHeight = right.disconnectedBlockHeight ∧
      (left.transactionIndex < right.transactionIndex ∨
        (left.transactionIndex = right.transactionIndex ∧ left.id ≤ right.id)))

instance : DecidableRel issueLe := fun left right => by
  unfold issueLe
  exact inferInstance

def validateStoredIssues : List (RollbackIssueId × RollbackIssue) → Except StorageError Unit
  | [] => .ok ()
  | (key, issue) :: rest => do
    validateRollbackIssue paqus issue none
    check (.integrity "stored rollback issue key is invalid") (key == issue.id)
    validateStoredIssues rest

def loadRollbackIssues : StorageM (List RollbackIssue) := do
  databaseCall
  let stored := (← get).rollbackIssues.toList
  liftExcept id (validateStoredIssues paqus stored)
  return (stored.map Prod.snd).insertionSort issueLe

def saveRollbackProofContext (context : RollbackProofContext) : StorageM Unit := do
  let expected ← liftExcept .codec
    (RollbackProofContext.new paqus context.losingHeaders context.canonicalHeaders context.commonAncestor)
  ensure (.integrity "rollback proof context id is invalid") (expected.id == context.id)
  databaseCall
  modify fun storage => { storage with
    rollbackProofContexts := storage.rollbackProofContexts.insert context.id context }

def loadRollbackProofContext (id : RollbackProofContextId) :
    StorageM (Option RollbackProofContext) := do
  databaseCall
  match (← get).rollbackProofContexts[id]? with
  | none => return none
  | some context =>
    let expected ← liftExcept .codec (RollbackProofContext.new paqus context.losingHeaders
      context.canonicalHeaders context.commonAncestor)
    ensure (.integrity "stored rollback proof context id is invalid") (expected.id == id && context.id == id)
    return some context

def genesisAccountsFromLedger (ledger : Ledger) (block : Block) : Except StorageError (BTreeMap Address Account) :=
  if block.height ≠ 0 then .error (.integrity "genesis account source block is not height 0")
  else match paqus.ledger.applyBlock paqus.ledger.new block with
    | .ok genesisLedger => .ok genesisLedger.accounts
    | .error _ =>
      if ledger.tipHeight = some 0 then .ok ledger.accounts
      else .error (.integrity "stored genesis block is invalid")

def storedGenesisAccounts (ledger : Ledger) : Except StorageError (Option (BTreeMap Address Account)) :=
  match ledger.block 0 with
  | none => .ok none
  | some block => (genesisAccountsFromLedger paqus ledger block).map some

def storeBlocks : List Block → Storage → Except StorageError Storage
  | [], storage => .ok storage
  | block :: rest, storage => do
    let hash ← storedHash paqus block
    check (.integrity "transaction index exceeds u32") (block.transactions.length ≤ u32Max + 1)
    storeBlocks rest { storage with
      blocksByHeight := storage.blocksByHeight.insert block.height block
      blocksByHash := storage.blocksByHash.insert hash block }

/-- The contents that one write transaction of `save_ledger` leaves. -/
def withLedger (ledger : Ledger) (genesisAccounts : Option (BTreeMap Address Account)) (storage : Storage) : Storage :=
  { storage with
    accounts := (ledger.accounts.toList.map Prod.snd).foldl
      (fun accounts account => accounts.insert account.address account) ∅
    headersByHeight := (ledger.chain.headers.toList.map Prod.snd).foldl
      (fun headers header => headers.insert header.height header) ∅
    tip := match ledger.tipHeight, ledger.tipHash with
      | some height, some hash => some (height, hash)
      | _, _ => storage.tip
    checkpointHeight := ledger.chain.checkpointHeight
    protocolState := some ⟨ledger.qcashUtxos, ledger.eventsByBlock⟩
    genesisAccounts := match genesisAccounts with
      | some accounts => some accounts
      | none => storage.genesisAccounts }

def saveLedger (ledger : Ledger) : StorageM Unit := do
  let genesisAccounts ← liftExcept id (storedGenesisAccounts paqus ledger)
  databaseCall
  let stored ← liftExcept id (storeBlocks paqus ledger.storedBlocks
    { ← get with blocksByHeight := ∅ })
  set (withLedger ledger genesisAccounts stored)
  databaseCall

end Storage

end PaqusNetwork
