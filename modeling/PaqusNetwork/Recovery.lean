import PaqusNetwork.Effect
import PaqusNetwork.Protocol.Paqus

namespace PaqusNetwork

abbrev RollbackIssueId := Hash

abbrev RollbackProofContextId := Hash

structure RollbackProofContext where
  id : RollbackProofContextId
  losingHeaders : List BlockHeader
  canonicalHeaders : List BlockHeader
  commonAncestor : BlockHash
  deriving DecidableEq, Repr

inductive RollbackRecoveryStatus
  | detected
  | requeued
  | reconfirmed (blockHeight : Nat) (blockHash : BlockHash)
  | conflict
  deriving DecidableEq, Repr

structure RollbackIssue where
  id : RollbackIssueId
  disconnectedBlockHeight : Nat
  disconnectedBlockHash : BlockHash
  transactionIndex : Nat
  transactionHash : TransactionHash
  family : TransactionFamily
  affectedAccounts : List Address
  transaction : SignedProtocolTransaction
  proofContextId : RollbackProofContextId
  transactionProof : MerkleInclusionProof
  status : RollbackRecoveryStatus
  detectedAt : Nat
  retryAttempts : Nat
  lastError : Option String
  deriving DecidableEq, Repr

def RollbackIssue.isReconfirmed (issue : RollbackIssue) : Bool :=
  match issue.status with
  | .reconfirmed _ _ => true
  | _ => false

/-- The signer and the named recipients, as an ordered set. -/
def affectedAccounts (transaction : SignedProtocolTransaction) : List Address :=
  let recipients := match transaction with
    | .batchTransfer transfer => transfer.outputs.filterMap (·.toTarget.address?)
    | .qcash qcash =>
      match qcash.kind with
      | .redeem recipient _ => [recipient]
      | _ => []
  ((transaction.signer :: recipients).foldl (fun set address => set.insert address ()) (∅ : BTreeMap Address Unit)).keys

variable {F : Type} (paqus : Paqus F)

def RollbackProofContext.new (losingHeaders canonicalHeaders : List BlockHeader)
    (commonAncestor : BlockHash) : Except CodecError RollbackProofContext := do
  let id ← paqus.codec.rollbackProofContextId losingHeaders canonicalHeaders commonAncestor
  return ⟨id, losingHeaders, canonicalHeaders, commonAncestor⟩

def RollbackIssue.new (blockHeight : Nat) (blockHash : BlockHash) (transactionIndex : Nat)
    (transaction : SignedProtocolTransaction) (proofContextId : RollbackProofContextId)
    (transactionProof : MerkleInclusionProof) (detectedAt : Nat) :
    Except CodecError RollbackIssue := do
  let transactionHash ← paqus.codec.transactionHash transaction
  Effect.check .invalidBlock (transactionIndex ≤ transactionProof.leafIndex)
  let id ← paqus.codec.rollbackIssueId blockHash transactionHash
  return {
    id, disconnectedBlockHeight := blockHeight, disconnectedBlockHash := blockHash,
    transactionIndex, transactionHash, family := transaction.family,
    affectedAccounts := PaqusNetwork.affectedAccounts transaction, transaction, proofContextId, transactionProof,
    status := .detected, detectedAt, retryAttempts := 0, lastError := none }

end PaqusNetwork
