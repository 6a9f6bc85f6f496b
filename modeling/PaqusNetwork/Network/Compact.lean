import PaqusNetwork.Mempool

namespace PaqusNetwork

open Numeric

def compactShortIdBytes : Nat := 8

def maxCompactRecoveryTransactions : Nat := 1024

structure CompactBlock where
  header : BlockHeader
  genesisAllocations : List GenesisAllocation
  coinbase : Option CoinbaseTransaction
  shortIds : List Nat
  deriving DecidableEq, Repr

structure IndexedBlockTransaction where
  index : Nat
  transaction : SignedProtocolTransaction
  deriving DecidableEq, Repr

inductive CompactBlockReconstruction
  | complete (block : Block)
  | missing (indexes : List Nat)
  deriving DecidableEq, Repr

inductive CompactBlockError
  | tooManyTransactions
  | invalidTransactionIndex
  | duplicateTransactionIndex
  | shortIdCollision
  | transactionShortIdMismatch
  | serialization
  deriving DecidableEq, Repr

variable {F : Type} (paqus : Paqus F)

def maxCompactMissingTransactions : Nat := paqus.rules.maxBlockDecodeItems

def compactShortId (blockHash : BlockHash) (transactionHash : TransactionHash) : Nat :=
  fromLittleEndian ((paqus.codec.domainHash ("PAQUS_COMPACT_BLOCK_V1".toUTF8.toList ++
    bigEndian paqus.codec.hashSize blockHash ++
    bigEndian paqus.codec.hashSize transactionHash)).take compactShortIdBytes)

def transactionShortId (blockHash : BlockHash) (transaction : SignedProtocolTransaction) :
    Except CompactBlockError Nat :=
  match paqus.codec.transactionHash transaction with
  | .ok hash => .ok (compactShortId paqus blockHash hash)
  | .error _ => .error .serialization

def shortIdsOf (blockHash : BlockHash) : List SignedProtocolTransaction → Except CompactBlockError (List Nat)
  | [] => .ok []
  | transaction :: rest =>
    match transactionShortId paqus blockHash transaction with
    | .error error => .error error
    | .ok shortId =>
      match shortIdsOf blockHash rest with
      | .error error => .error error
      | .ok shortIds => .ok (shortId :: shortIds)

namespace CompactBlock

def fromBlock (block : Block) : Except CompactBlockError CompactBlock :=
  if block.transactions.length > paqus.rules.maxBlockDecodeItems then .error .tooManyTransactions
  else match paqus.blockHash block with
    | .error _ => .error .serialization
    | .ok blockHash =>
      match shortIdsOf paqus blockHash block.transactions with
      | .error error => .error error
      | .ok shortIds =>
        if shortIds.Nodup then
          .ok ⟨block.header, block.body.genesisAllocations, block.body.coinbase, shortIds⟩
        else .error .shortIdCollision

def blockHash (compact : CompactBlock) : Except CompactBlockError BlockHash :=
  match paqus.codec.headerHash compact.header with
  | .ok hash => .ok hash
  | .error _ => .error .serialization

/-- The supplied transactions by position; a wrong item ends the reconstruction. -/
def suppliedByIndex (shortIds : List Nat) (blockHash : BlockHash) :
    List IndexedBlockTransaction → BTreeMap Nat SignedProtocolTransaction →
      Except CompactBlockError (BTreeMap Nat SignedProtocolTransaction)
  | [], supplied => .ok supplied
  | item :: rest, supplied =>
    match shortIds[item.index]? with
    | none => .error .invalidTransactionIndex
    | some expected =>
      match transactionShortId paqus blockHash item.transaction with
      | .error error => .error error
      | .ok shortId =>
        if shortId ≠ expected then .error .transactionShortIdMismatch
        else if supplied.contains item.index then .error .duplicateTransactionIndex
        else suppliedByIndex shortIds blockHash rest (supplied.insert item.index item.transaction)

def mempoolByShortId (wanted : List Nat) (blockHash : BlockHash) :
    List SignedProtocolTransaction → BTreeMap Nat SignedProtocolTransaction →
      Except CompactBlockError (BTreeMap Nat SignedProtocolTransaction)
  | [], found => .ok found
  | transaction :: rest, found =>
    match transactionShortId paqus blockHash transaction with
    | .error error => .error error
    | .ok shortId =>
      if shortId ∉ wanted then mempoolByShortId wanted blockHash rest found
      else if found.contains shortId then .error .shortIdCollision
      else mempoolByShortId wanted blockHash rest (found.insert shortId transaction)

def fill (supplied pooled : BTreeMap Nat SignedProtocolTransaction) :
    Nat → List Nat → List SignedProtocolTransaction × List Nat
  | _, [] => ([], [])
  | index, shortId :: rest =>
    let filled := fill supplied pooled (index + 1) rest
    match supplied[index]? with
    | some transaction => (transaction :: filled.1, filled.2)
    | none =>
      match pooled[shortId]? with
      | some transaction => (transaction :: filled.1, filled.2)
      | none => (filled.1, index :: filled.2)

def reconstruct (compact : CompactBlock) (mempool : Mempool) (supplied : List IndexedBlockTransaction) :
    Except CompactBlockError CompactBlockReconstruction :=
  if compact.shortIds.length > paqus.rules.maxBlockDecodeItems ∨
      supplied.length > maxCompactMissingTransactions paqus then .error .tooManyTransactions
  else if ¬compact.shortIds.Nodup then .error .shortIdCollision
  else match compact.blockHash paqus with
    | .error error => .error error
    | .ok blockHash =>
      match suppliedByIndex paqus compact.shortIds blockHash supplied ∅ with
      | .error error => .error error
      | .ok supplied =>
        match mempoolByShortId paqus compact.shortIds blockHash mempool.values ∅ with
        | .error error => .error error
        | .ok pooled =>
          let filled := fill supplied pooled 0 compact.shortIds
          if filled.2 ≠ [] then .ok (.missing filled.2)
          else .ok (.complete ⟨compact.header, ⟨compact.genesisAllocations, compact.coinbase, filled.1⟩, ⟨0⟩⟩)

end CompactBlock

end PaqusNetwork
