import PaqusNetwork.Effect
import PaqusNetwork.Numeric
import PaqusNetwork.Protocol.Paqus
import Mathlib.Data.List.Sort

namespace PaqusNetwork

open Effect Numeric

/-- The error of a transaction's own checks; its text comes from the protocol crate. -/
structure TransactionError where
  text : String
  deriving DecidableEq, Repr

inductive MempoolError
  | duplicateTransaction
  | feeTooLow
  | mempoolFull
  | duplicateBlockMinerFeeOutput
  | invalidTransaction (error : TransactionError)
  | invalidLedgerState (error : LedgerError)
  | cashCoinReserved
  | serialization (error : CodecError)
  | feeOverflow
  deriving DecidableEq, Repr

def MempoolError.display (texts : ErrorTexts) : MempoolError → String
  | duplicateTransaction => "transaction already exists in mempool"
  | feeTooLow => "transaction fee is below node policy"
  | mempoolFull => "mempool transaction limit reached"
  | duplicateBlockMinerFeeOutput => "transaction has more than one block_miner fee output"
  | invalidTransaction error => "invalid transaction: " ++ error.text
  | invalidLedgerState error => "transaction does not fit ledger state: " ++ texts.ledger error
  | cashCoinReserved => "cash coin is already reserved by another mempool transaction"
  | serialization error => "failed to serialize transaction: " ++ texts.codec error
  | feeOverflow => "block transaction fees overflow"

structure MempoolConfig where
  maxTransactions : Nat
  maxBytes : Nat
  transactionTtlSecs : Nat
  lowFeeTtlSecs : Nat
  minRelayFee : Nat
  marketFee : Nat
  deriving DecidableEq, Repr

def MempoolConfig.default : MempoolConfig where
  maxTransactions := 1000
  maxBytes := 10 * 1024 * 1024
  transactionTtlSecs := 0
  lowFeeTtlSecs := 0
  minRelayFee := 0
  marketFee := 0

def feeRateUnitBytes : Nat := 1

structure Mempool where
  transactions : BTreeMap TransactionHash SignedProtocolTransaction
  bySignerState : BTreeMap (Address × Hash) TransactionHash
  reservedCoins : BTreeMap QCashCoinId TransactionHash
  insertedAt : BTreeMap TransactionHash Nat
  totalBytes : Nat
  config : MempoolConfig

def feeRate (fee virtualSize : Nat) : Nat :=
  if virtualSize = 0 then u64Max else saturatingMul fee feeRateUnitBytes / virtualSize

def blockMinerOutputCount : SignedProtocolTransaction → Nat
  | .batchTransfer transaction => (transaction.outputs.filter (·.toTarget == .blockMiner)).length
  | .qcash _ => 0

def protocolLastState : SignedProtocolTransaction → Hash
  | .batchTransfer transaction => transaction.lastState
  | .qcash transaction => transaction.lastState

def redeemCoinIds : SignedProtocolTransaction → List QCashCoinId
  | .qcash transaction =>
    match transaction.kind with
    | .redeem _ inputs => inputs
    | .recoverRedeem _ inputs => inputs
    | .withdraw _ _ => []
  | .batchTransfer _ => []

section

variable {F : Type} (paqus : Paqus F)

def minerBountyRate (transaction : SignedProtocolTransaction) : Except MempoolError Nat :=
  match paqus.codec.virtualSize transaction with
  | .ok virtualSize => .ok (feeRate (paqus.rules.blockMinerBounty transaction) virtualSize)
  | .error error => .error (.serialization error)

def applyExtension (staged : Ledger) (transaction : SignedProtocolTransaction) (height : Nat) :
    Except MempoolError Ledger :=
  match transaction with
  | .batchTransfer tx => (paqus.ledger.applySignedTransactionAt staged tx height).mapError .invalidLedgerState
  | .qcash tx => (paqus.ledger.applySignedQCashTransaction staged tx height).mapError .invalidLedgerState

/-- The order of `sort_by_key(|tx| (tx.signer(), tx.hash().ok()))`; `None` comes first. -/
def pendingLe (left right : SignedProtocolTransaction) : Prop :=
  left.signer < right.signer ∨ (left.signer = right.signer ∧
    match paqus.codec.transactionHash left, paqus.codec.transactionHash right with
    | .ok l, .ok r => l ≤ r
    | .ok _, .error _ => False
    | .error _, _ => True)

instance : DecidableRel (pendingLe paqus) := fun left right => by
  unfold pendingLe
  cases paqus.codec.transactionHash left <;> cases paqus.codec.transactionHash right <;>
    exact inferInstance

def sortPending (pending : List SignedProtocolTransaction) : List SignedProtocolTransaction :=
  pending.insertionSort (pendingLe paqus)

def applyPending (height : Nat) (staged : Ledger) : List SignedProtocolTransaction → Except MempoolError Ledger
  | [] => .ok staged
  | transaction :: rest =>
    match applyExtension paqus staged transaction height with
    | .ok next => applyPending height next rest
    | .error error => .error error

/-- The height at which the next block, and so every pooled transaction, is applied. -/
def nextHeight (ledger : Ledger) : Nat :=
  match ledger.tipHeight with
  | some height => saturatingAdd height 1
  | none => 0

end

namespace Mempool

def withConfig (config : MempoolConfig) : Mempool := ⟨∅, ∅, ∅, ∅, 0, config⟩

def new : Mempool := withConfig .default

def contains (pool : Mempool) (hash : TransactionHash) : Bool := pool.transactions.contains hash

def values (pool : Mempool) : List SignedProtocolTransaction := pool.transactions.toList.map Prod.snd

variable {F : Type} (paqus : Paqus F)

/-- The comparison of `min_by`: rate, then insertion time, then hash. -/
def cheaper (left right : TransactionHash × Nat × Nat) : Bool :=
  left.2.1 < right.2.1 || (left.2.1 == right.2.1 &&
    (left.2.2 < right.2.2 || (left.2.2 == right.2.2 && left.1 < right.1)))

def lowestFeeCandidate (pool : Mempool) : Option (TransactionHash × Nat × Nat) :=
  let candidates := pool.transactions.toList.filterMap fun (hash, transaction) =>
    match minerBountyRate paqus transaction with
    | .ok rate => some (hash, rate, (pool.insertedAt[hash]?).getD 0)
    | .error _ => none
  candidates.foldl (fun best entry =>
    match best with
    | none => some entry
    | some held => if cheaper entry held then some entry else some held) none

def remove (hash : TransactionHash) :
    EStateM MempoolError Mempool (Option SignedProtocolTransaction) := do
  match (← get).transactions[hash]? with
  | none => return none
  | some transaction =>
    modify fun pool => { pool with
      transactions := pool.transactions.erase hash
      insertedAt := pool.insertedAt.erase hash }
    let bytes ← liftExcept .serialization (paqus.codec.transactionBytes transaction)
    modify fun pool => { pool with
      totalBytes := pool.totalBytes - bytes.length
      bySignerState := pool.bySignerState.erase (transaction.signer, protocolLastState transaction)
      reservedCoins := (redeemCoinIds transaction).foldl
        (fun coins coinId => if coins[coinId]? = some hash then coins.erase coinId else coins)
        pool.reservedCoins }
    return some transaction

def removeAll : List TransactionHash → EStateM MempoolError Mempool Unit
  | [] => return ()
  | hash :: rest => do
    discard (remove paqus hash)
    removeAll rest

def isFullFor (pool : Mempool) (incomingSize : Nat) : Bool :=
  pool.transactions.size ≥ pool.config.maxTransactions ||
    saturatingAdd pool.totalBytes incomingSize > pool.config.maxBytes

def evictTurn (incomingRate incomingSize : Nat) : EStateM MempoolError Mempool Bool := do
  let pool ← get
  if pool.isFullFor incomingSize then
    match pool.lowestFeeCandidate paqus with
    | none => throw .mempoolFull
    | some (victimHash, victimRate, _) =>
      ensure .feeTooLow (victimRate < incomingRate)
      discard (remove paqus victimHash)
      return true
  else
    return false

/-- A turn that goes on removes a transaction, so one turn more than there are pooled
transactions is never used up. -/
def evictLoop (incomingRate incomingSize : Nat) : Nat → EStateM MempoolError Mempool Unit
  | 0 => throw .mempoolFull
  | turns + 1 => do
    if ← evictTurn paqus incomingRate incomingSize then
      evictLoop incomingRate incomingSize turns

def evictForCapacity (incoming : SignedProtocolTransaction) (incomingSize : Nat) :
    EStateM MempoolError Mempool Unit := do
  let incomingRate ← liftExcept id (minerBountyRate paqus incoming)
  evictLoop paqus incomingRate incomingSize ((← get).transactions.size + 1)

def insertValidated (now : Nat) (ledger : Ledger) (transaction : SignedProtocolTransaction) :
    EStateM MempoolError Mempool TransactionHash := do
  let bytes ← liftExcept .serialization (paqus.codec.transactionBytes transaction)
  let transactionSize := bytes.length
  ensure .mempoolFull (transactionSize ≤ (← get).config.maxBytes)
  let hash ← liftExcept .serialization (paqus.codec.transactionHash transaction)
  ensure .duplicateBlockMinerFeeOutput (blockMinerOutputCount transaction ≤ 1)
  let signerState := (transaction.signer, protocolLastState transaction)
  let pool ← get
  ensure .duplicateTransaction (!(pool.transactions.contains hash || pool.bySignerState.contains signerState))
  evictForCapacity paqus transaction transactionSize
  let pool ← get
  let coinIds := redeemCoinIds transaction
  ensure .cashCoinReserved (!coinIds.any (pool.reservedCoins.contains ·))
  discard (liftExcept id (applyPending paqus (nextHeight ledger) ledger
    (sortPending paqus (pool.values ++ [transaction]))))
  modify fun pool => { pool with
    reservedCoins := coinIds.foldl (fun coins coinId => coins.insert coinId hash) pool.reservedCoins
    bySignerState := pool.bySignerState.insert signerState hash
    transactions := pool.transactions.insert hash transaction
    insertedAt := pool.insertedAt.insert hash now
    totalBytes := saturatingAdd pool.totalBytes transactionSize }
  return hash

def evictByPolicy (now : Nat) : EStateM MempoolError Mempool Nat := do
  let pool ← get
  if pool.config.transactionTtlSecs = 0 then
    return 0
  else
    let evicted := pool.transactions.keys.filter fun hash =>
      saturatingAdd ((pool.insertedAt[hash]?).getD now) pool.config.transactionTtlSecs ≤ now
    removeAll paqus evicted
    return evicted.length

def confirmedHashes : List SignedProtocolTransaction → Except CodecError (BTreeMap TransactionHash Unit)
  | [] => .ok ∅
  | transaction :: rest =>
    match paqus.codec.transactionHash transaction with
    | .error error => .error error
    | .ok hash =>
      match confirmedHashes rest with
      | .error error => .error error
      | .ok hashes => .ok (hashes.insert hash ())

def removeConfirmed (block : Block) : EStateM MempoolError Mempool Unit := do
  let hashes ← liftExcept .serialization (confirmedHashes paqus block.transactions)
  removeAll paqus hashes.keys

end Mempool

end PaqusNetwork
