import Mathlib.Order.Defs.LinearOrder
import Std.Data.ExtTreeMap

namespace PaqusNetwork

/-- Fixed-size byte strings are read as big-endian numbers: this keeps their order. -/
abbrev Hash := Nat

abbrev BlockHash := Nat

abbrev TransactionHash := Nat

abbrev Address := Nat

abbrev Amount := Nat

abbrev QCashCoinId := Nat

abbrev BTreeMap (α β : Type) [Ord α] := Std.ExtTreeMap α β

instance instOrdProdNat : Ord (Nat × Nat) := lexOrd

inductive CodecError
  | encodeFailed
  | invalidBlock
  | other (text : String)
  deriving DecidableEq, Repr

inductive ConsensusError
  | unexpectedDifficulty
  | other (text : String)
  deriving DecidableEq, Repr

inductive GenesisError
  | hashMismatch (expected found : Hash)
  | other (text : String)
  deriving DecidableEq, Repr

inductive LedgerError
  | duplicateBlock
  | invalidStateRoot
  | finalityViolation
  | other (text : String)
  deriving DecidableEq, Repr

inductive ForkChoiceError
  | missingParent
  | duplicateBlock
  | serialization (error : CodecError)
  deriving DecidableEq, Repr

structure RollbackProofError where
  text : String
  deriving DecidableEq, Repr

inductive OutputTarget
  | address (address : Address)
  | blockMiner
  deriving DecidableEq, Repr

def OutputTarget.address? : OutputTarget → Option Address
  | .address recipient => some recipient
  | .blockMiner => none

structure TransferOutput where
  toTarget : OutputTarget
  amount : Amount
  deriving DecidableEq, Repr

/-- `authorization` holds the public keys, signatures and validity window, which only
the protocol crate reads. -/
structure SignedBatchTransfer where
  sender : Address
  outputs : List TransferOutput
  lastState : Hash
  authorization : List Nat
  deriving DecidableEq, Repr

inductive QCashTransactionKind
  | withdraw (amount : Amount) (commitments : List Nat)
  | redeem (recipient : Address) (inputs : List QCashCoinId)
  | recoverRedeem (claimant : Address) (inputs : List QCashCoinId)
  deriving DecidableEq, Repr

structure SignedQCashTransaction where
  signer : Address
  lastState : Hash
  kind : QCashTransactionKind
  authorization : List Nat
  deriving DecidableEq, Repr

inductive TransactionFamily
  | batchTransfer
  | qcash
  deriving DecidableEq, Repr

inductive SignedProtocolTransaction
  | batchTransfer (transaction : SignedBatchTransfer)
  | qcash (transaction : SignedQCashTransaction)
  deriving DecidableEq, Repr

namespace SignedProtocolTransaction

def signer : SignedProtocolTransaction → Address
  | batchTransfer transaction => transaction.sender
  | qcash transaction => transaction.signer

def family : SignedProtocolTransaction → TransactionFamily
  | batchTransfer _ => .batchTransfer
  | qcash _ => .qcash

end SignedProtocolTransaction

structure GenesisAllocation where
  recipient : Address
  amount : Amount
  deriving DecidableEq, Repr

structure CoinbaseTransaction where
  miner : Address
  amount : Amount
  deriving DecidableEq, Repr

/-- `rest` stands for the header fields that only the header hash and the protocol's own checks read. -/
structure BlockHeader where
  height : Nat
  previousHash : Hash
  stateRoot : Hash
  difficulty : Nat
  rest : List Nat
  deriving DecidableEq, Repr

structure BlockBody where
  genesisAllocations : List GenesisAllocation
  coinbase : Option CoinbaseTransaction
  transactions : List SignedProtocolTransaction
  deriving DecidableEq, Repr

structure BlockProof where
  nonce : Nat
  deriving DecidableEq, Repr

structure Block where
  header : BlockHeader
  body : BlockBody
  proof : BlockProof
  deriving DecidableEq, Repr

namespace Block

def height (block : Block) : Nat := block.header.height

def previousHash (block : Block) : Hash := block.header.previousHash

def stateRoot (block : Block) : Hash := block.header.stateRoot

def transactions (block : Block) : List SignedProtocolTransaction := block.body.transactions

def isGenesis (block : Block) : Bool := block.header.height == 0

end Block

structure Account where
  address : Address
  balance : Amount
  statement : Hash
  rest : List Nat
  deriving DecidableEq, Repr

structure QCashUtxo where
  amount : Amount
  rest : List Nat
  deriving DecidableEq, Repr

abbrev QCashUtxoSet := BTreeMap QCashCoinId QCashUtxo

inductive ProtocolEventKind
  | batchTransfer (sender recipient : Address) (rest : List Nat)
  | qcashWithdrawn (signer : Address) (rest : List Nat)
  | qcashRedeemed (signer recipient : Address) (rest : List Nat)
  | qcashRecoverRedeemed (signer claimant : Address) (rest : List Nat)
  | genesisAllocation (recipient : Address) (rest : List Nat)
  | coinbasePaid (miner : Address) (rest : List Nat)
  deriving DecidableEq, Repr

structure ProtocolEvent where
  blockHeight : Nat
  blockHash : BlockHash
  eventIndex : Nat
  transactionHash : Option TransactionHash
  kind : ProtocolEventKind
  deriving DecidableEq, Repr

structure Chain where
  headers : BTreeMap Nat BlockHeader
  blocks : BTreeMap Nat Block
  tipHeight : Option Nat
  tipHash : Option BlockHash
  checkpointHeight : Option Nat

def Chain.new : Chain := ⟨∅, ∅, none, none, none⟩

structure Ledger where
  accounts : BTreeMap Address Account
  qcashUtxos : QCashUtxoSet
  eventsByBlock : BTreeMap BlockHash (List ProtocolEvent)
  chain : Chain

namespace Ledger

def tipHeight (ledger : Ledger) : Option Nat := ledger.chain.tipHeight

def tipHash (ledger : Ledger) : Option BlockHash := ledger.chain.tipHash

def block (ledger : Ledger) (height : Nat) : Option Block := ledger.chain.blocks[height]?

abbrev storedBlocks (ledger : Ledger) : List Block := ledger.chain.blocks.toList.map Prod.snd

end Ledger

structure Consensus where
  difficulty : Nat
  deriving DecidableEq, Repr

structure ForkNode where
  hash : BlockHash
  parent : BlockHash
  height : Nat
  block : Block
  cumulativeWork : Nat
  deriving DecidableEq, Repr

structure MerkleInclusionProof where
  leafIndex : Nat
  siblings : List Hash
  deriving DecidableEq, Repr

structure RollbackProofBundle where
  version : Nat
  transaction : SignedProtocolTransaction
  disconnectedBlockHeader : BlockHeader
  transactionProof : MerkleInclusionProof
  losingHeaders : List BlockHeader
  canonicalHeaders : List BlockHeader
  commonAncestor : BlockHash
  deriving DecidableEq, Repr

/-- What the verification of a rollback proof bundle establishes. -/
structure VerifiedRollback where
  transactionHash : TransactionHash
  disconnectedBlockHash : BlockHash
  deriving DecidableEq, Repr

/-- Canonical encodings and the hashes taken of them. -/
structure Codec where
  headerHash : BlockHeader → Except CodecError BlockHash
  transactionHash : SignedProtocolTransaction → Except CodecError TransactionHash
  transactionBytes : SignedProtocolTransaction → Except CodecError (List UInt8)
  virtualSize : SignedProtocolTransaction → Except CodecError Nat
  blockBytes : Block → Except CodecError (List UInt8)
  transactionInclusionProofs : Block → Nat → Except CodecError MerkleInclusionProof
  rollbackIssueId : BlockHash → TransactionHash → Except CodecError Hash
  rollbackProofContextId : List BlockHeader → List BlockHeader → BlockHash → Except CodecError Hash
  hashSize : Nat
  /-- `domain_hash` in the raw domain, as the bytes of the digest. -/
  domainHash : List UInt8 → List UInt8

/-- The texts of the protocol's errors, as their `Display` prints them. -/
structure ErrorTexts where
  codec : CodecError → String
  consensus : ConsensusError → String
  genesis : GenesisError → String
  forkChoice : ForkChoiceError → String
  ledger : LedgerError → String

structure ConsensusRules where
  validateStructure : Block → Bool
  validateGenesisBlock : Consensus → Block → Except ConsensusError Unit
  validateNextBlockWithTip : Consensus → Block → Block → Except ConsensusError Unit
  blockMinerBounty : SignedProtocolTransaction → Amount
  minerAddress : Block → Address
  verifyRollbackProof : RollbackProofBundle → Except RollbackProofError VerifiedRollback
  rollbackProofVersion : Nat
  genesisHash : Hash
  finalityDepth : Nat
  maxBlockDecodeItems : Nat

structure LedgerApi where
  new : Ledger
  genesisLedger : Except GenesisError Ledger
  fromAccountsAndChain : BTreeMap Address Account → Chain → Except LedgerError Ledger
  chainInsertBlock : Chain → Block → Except LedgerError Chain
  executeBlock : Ledger → Block → Except LedgerError Ledger
  applyBlock : Ledger → Block → Except LedgerError Ledger
  stateRootAfterBlock : Ledger → Block → Except LedgerError Hash
  applySignedTransactionAt : Ledger → SignedBatchTransfer → Nat → Except LedgerError Ledger
  applySignedQCashTransaction : Ledger → SignedQCashTransaction → Nat → Except LedgerError Ledger

/-- The fork graph, as an abstract type `F` with its operations. -/
structure ForkChoiceApi (F : Type) where
  new : F
  insertBlock : F → Block → Except ForkChoiceError (BlockHash × F)
  insertHeader : F → BlockHeader → Except ForkChoiceError (BlockHash × F)
  get : F → BlockHash → Option ForkNode
  bestTip : F → Option ForkNode
  ancestorHashes : F → BlockHash → List BlockHash
  ancestorHashAtHeight : F → BlockHash → Nat → Option BlockHash
  branchFromAncestor : F → BlockHash → BlockHash → Option (List Block)
  pruneFinalized : F → BlockHash → Except ForkChoiceError (Nat × F)
  reorgCrossesFinalityBoundary : Ledger → F → BlockHash → Bool

/-- The protocol crate, which the node calls and does not define. -/
structure Paqus (F : Type) where
  codec : Codec
  texts : ErrorTexts
  rules : ConsensusRules
  ledger : LedgerApi
  fork : ForkChoiceApi F

namespace Paqus

variable {F : Type}

def blockHash (paqus : Paqus F) (block : Block) : Except CodecError BlockHash := paqus.codec.headerHash block.header

def contains (paqus : Paqus F) (forkChoice : F) (hash : BlockHash) : Bool := (paqus.fork.get forkChoice hash).isSome

end Paqus

end PaqusNetwork
