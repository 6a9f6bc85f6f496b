import PaqusNetwork.Network.Handler
import PaqusNetwork.RunLength

namespace PaqusNetwork

open Effect Numeric

/-- The fields of `CURRENT_CHAIN_PARAMS` that peers compare. -/
structure ChainParams where
  protocolVersion : Nat
  chainId : Nat
  chainName : String
  protocolStage : String
  powAlgorithm : String
  difficultyAlgorithm : String
  networkMagic : Vector UInt8 4
  deriving DecidableEq, Repr

def p2pWireFormatVersion : Nat := 4

structure VersionInfo where
  protocolVersion : Nat
  wireFormatVersion : Nat
  chainId : Nat
  chainName : String
  protocolStage : String
  powAlgorithm : String
  difficultyAlgorithm : String
  networkMagic : Vector UInt8 4
  tip : Option TipInfo
  deriving DecidableEq, Repr

def VersionInfo.ofParams (params : ChainParams) (tip : Option TipInfo) : VersionInfo where
  protocolVersion := params.protocolVersion
  wireFormatVersion := p2pWireFormatVersion
  chainId := params.chainId
  chainName := params.chainName
  protocolStage := params.protocolStage
  powAlgorithm := params.powAlgorithm
  difficultyAlgorithm := params.difficultyAlgorithm
  networkMagic := params.networkMagic
  tip

def VersionInfo.validateCompatibility (params : ChainParams) (version : VersionInfo) : Except RejectReason Unit :=
  if version.networkMagic ≠ params.networkMagic then .error .networkMismatch
  else if version.chainId ≠ params.chainId ∨ version.chainName ≠ params.chainName ∨
      version.protocolStage ≠ params.protocolStage then .error .chainMismatch
  else if version.protocolVersion ≠ params.protocolVersion then .error .protocolVersionMismatch
  else if version.wireFormatVersion ≠ p2pWireFormatVersion then .error .protocolVersionMismatch
  else if version.powAlgorithm ≠ params.powAlgorithm ∨
      version.difficultyAlgorithm ≠ params.difficultyAlgorithm then .error .consensusMismatch
  else .ok ()

inductive InventoryItem
  | block (hash : BlockHash)
  | transaction (hash : TransactionHash)
  deriving DecidableEq, Repr

inductive SnapshotCompression
  | none
  | rle
  deriving DecidableEq, Repr

/-- Every message: `chain` holds those about tips, headers and blocks. -/
inductive PeerMessage
  | chain (message : NetworkMessage)
  | version (info : VersionInfo)
  | verAck (info : VersionInfo)
  | getSnapshotManifest (height : Nat) (blockHash : BlockHash)
  | snapshotManifest (height : Nat) (blockHash : BlockHash) (size : Nat) (contentHash : Hash)
      (chunkSize : Nat)
  | getSnapshotChunk (height : Nat) (blockHash : BlockHash) (offset length : Nat)
  | snapshotChunk (height : Nat) (blockHash : BlockHash) (offset : Nat)
      (compression : SnapshotCompression) (uncompressedLength : Nat) (bytes : List UInt8)
  | inventory (items : List InventoryItem)
  | getData (items : List InventoryItem)
  | transaction (transaction : SignedProtocolTransaction)
  | transactions (transactions : List SignedProtocolTransaction)
  | getMempoolInventory
  | reconcileMempool (epoch : Nat) (shortIds : List Nat)
  | getPeers
  | peers (addresses : List String)
  | compactBlock (compact : CompactBlock)
  | getCompactBlockTransactions (blockHash : BlockHash) (indexes : List Nat)
  | compactBlockTransactions (blockHash : BlockHash) (transactions : List IndexedBlockTransaction)
  deriving DecidableEq, Repr

def PeerMessage.invalid (text : String) : PeerMessage := .chain (.reject .invalidMessage text)

/-- What the messages need of the protocol crate beyond blocks and ledgers. -/
structure PeerApi where
  params : ChainParams
  snapshotPaqusBytes : Ledger → Except GenesisError (List UInt8)
  artifactPayloadHash : List UInt8 → Hash

def snapshotChunkSize : Nat := 4 * 1024 * 1024

def maxFastSyncBundleSize : Nat := 300 * 1024 * 1024

def reconcileBuckets : Nat := 16

def encodeRuns (bytes : List UInt8) : List UInt8 :=
  (RunLength.runs 255 bytes).flatMap fun run => [UInt8.ofNat run.1, run.2]

def compressChunk (bytes : List UInt8) : SnapshotCompression × List UInt8 :=
  let encoded := encodeRuns bytes
  if encoded.length < bytes.length then (.rle, encoded) else (.none, bytes)

def decodeRuns (expectedLength : Nat) : List UInt8 → List UInt8 → Except String (List UInt8)
  | count :: value :: rest, decoded =>
    if count.toNat = 0 ∨ saturatingAdd decoded.length count.toNat > expectedLength then
      .error "invalid RLE snapshot expansion"
    else decodeRuns expectedLength rest (decoded ++ List.replicate count.toNat value)
  | _, decoded =>
    if decoded.length ≠ expectedLength then .error "snapshot chunk decompressed length mismatch"
    else .ok decoded

def decompressChunk (compression : SnapshotCompression) (bytes : List UInt8) (expectedLength : Nat) :
    Except String (List UInt8) :=
  if expectedLength > snapshotChunkSize then .error "snapshot chunk decompressed size exceeds limit"
  else
    match compression with
    | .none =>
      if bytes.length ≠ expectedLength then .error "snapshot chunk length mismatch" else .ok bytes
    | .rle =>
      if bytes.length % 2 ≠ 0 then .error "invalid RLE snapshot chunk"
      else decodeRuns expectedLength bytes []

variable {F : Type} (paqus : Paqus F) (api : PeerApi)

def reconcileShortId (epoch : Nat) (hash : TransactionHash) : Nat :=
  fromLittleEndian ((paqus.codec.domainHash ("PAQUS_MEMPOOL_RECONCILE_V1".toUTF8.toList ++
    littleEndian 8 epoch ++ bigEndian paqus.codec.hashSize hash)).take 8)

/-- The snapshot of the active ledger, from the cache when it was made for the active tip. -/
def snapshotBytes : NodeM F (List UInt8) := do
  let node ← get
  let tip ← orThrow .missingActiveTip node.ledger.tipHash
  if node.snapshotCache.all (·.1 != tip) then
    let bytes ← liftExcept .genesis (api.snapshotPaqusBytes node.ledger)
    modify fun node => { node with snapshotCache := some (tip, bytes) }
  let cached ← orThrow .missingActiveTip (← get).snapshotCache
  return cached.2

def onNode {α : Type} (program : NodeM F α) : EStateM NetworkError (Node F) α :=
  focus id (fun next _ => next) .node program

def snapshotManifestReply (height : Nat) (blockHash : BlockHash) :
    EStateM NetworkError (Node F) (Option PeerMessage) := do
  let node ← get
  if node.ledger.tipHeight ≠ some height ∨ node.ledger.tipHash ≠ some blockHash then
    return some (.invalid "snapshot checkpoint is not the current canonical tip")
  let bytes ← onNode (snapshotBytes api)
  return some (.snapshotManifest height blockHash bytes.length (api.artifactPayloadHash bytes) snapshotChunkSize)

def snapshotChunkOf (height : Nat) (blockHash : BlockHash) (offset length : Nat) (bytes : List UInt8) :
    PeerMessage :=
  if offset ≥ bytes.length then .invalid "snapshot chunk offset is out of range"
  else
    let chunk := (bytes.take (min (saturatingAdd offset length) bytes.length)).drop offset
    let compressed := compressChunk chunk
    .snapshotChunk height blockHash offset compressed.1 chunk.length compressed.2

def snapshotChunkReply (height : Nat) (blockHash : BlockHash) (offset length : Nat) :
    EStateM NetworkError (Node F) (Option PeerMessage) := do
  let node ← get
  if length = 0 ∨ length > snapshotChunkSize ∨ node.ledger.tipHeight ≠ some height ∨
      node.ledger.tipHash ≠ some blockHash then
    return some (.invalid "invalid snapshot chunk request")
  let bytes ← onNode (snapshotBytes api)
  return some (snapshotChunkOf height blockHash offset length bytes)

def Node.lacks (node : Node F) : InventoryItem → Bool
  | .block hash => (node.cache.blockByHash hash).isNone
  | .transaction hash => !node.mempool.contains hash

/-- The blocks and the transactions of an inventory that the node has, each in the order asked for. -/
def Node.blocksOf (node : Node F) (items : List InventoryItem) : List Block :=
  items.filterMap fun
    | .block hash => node.cache.blockByHash hash
    | .transaction _ => none

def Node.transactionsOf (node : Node F) (items : List InventoryItem) : List SignedProtocolTransaction :=
  items.filterMap fun
    | .block _ => none
    | .transaction hash => node.mempool.transactions[hash]?

def dataReply (node : Node F) (items : List InventoryItem) : Option PeerMessage :=
  let blocks := node.blocksOf items
  let transactions := node.transactionsOf items
  if ¬blocks.isEmpty then some (.chain (.blocks blocks))
  else if ¬transactions.isEmpty then some (.transactions transactions)
  else none

def submitReceived : List SignedProtocolTransaction → EStateM NetworkError (Node F) Unit
  | [] => pure ()
  | transaction :: rest => do
    let node ← get
    match paqus.codec.transactionHash transaction with
    | .ok hash =>
      runIf (!node.mempool.contains hash) (discard (onNode (submitProtocolTransaction paqus transaction)))
    | .error _ => discard (onNode (submitProtocolTransaction paqus transaction))
    submitReceived rest

def missingInBucket (epoch : Nat) (remote : List Nat) :
    List SignedProtocolTransaction → Except CodecError (List SignedProtocolTransaction)
  | [] => .ok []
  | transaction :: rest => do
    let hash ← paqus.codec.transactionHash transaction
    let missing ← missingInBucket epoch remote rest
    let shortId := reconcileShortId paqus epoch hash
    return if shortId % reconcileBuckets = epoch % reconcileBuckets ∧ shortId ∉ remote then
      transaction :: missing else missing

def reconcileReply (node : Node F) (epoch : Nat) (shortIds : List Nat) : Except CodecError PeerMessage :=
  if shortIds.length > paqus.rules.maxBlockDecodeItems ∨ ¬shortIds.Nodup then
    .ok (.invalid "invalid mempool reconciliation set")
  else (missingInBucket paqus epoch shortIds node.mempool.values).map .transactions

def compactBlockReply (compact : CompactBlock) : EStateM NetworkError (Node F) (Option PeerMessage) := do
  let node ← get
  match compact.blockHash paqus with
  | .error _ => return some (.invalid "compact block header is invalid")
  | .ok blockHash =>
    if (node.cache.blockByHash blockHash).isSome then
      return none
    match compact.reconstruct paqus node.mempool [] with
    | .ok (.complete block) =>
      onNode (applyBlock paqus block)
      return none
    | .ok (.missing indexes) =>
      onNode (stageCompactBlock blockHash compact)
      return some (.getCompactBlockTransactions blockHash indexes)
    | .error _ => return some (.chain (.getBlockByHash blockHash))

def transactionsAt (block : Block) : List Nat → Option (List IndexedBlockTransaction)
  | [] => some []
  | index :: rest => do
    let transaction ← block.transactions[index]?
    let others ← transactionsAt block rest
    return ⟨index, transaction⟩ :: others

def compactTransactionsReply (node : Node F) (blockHash : BlockHash) (indexes : List Nat) : PeerMessage :=
  if indexes.length > maxCompactMissingTransactions paqus then
    .invalid "too many compact block transaction indexes"
  else if ¬indexes.Nodup then .invalid "duplicate compact block transaction index"
  else
    match node.cache.blockByHash blockHash with
    | none => .invalid "compact block is unavailable"
    | some block =>
      match transactionsAt block indexes with
      | none => .invalid "compact block transaction index is invalid"
      | some transactions => .compactBlockTransactions blockHash transactions

def completeCompactBlock (blockHash : BlockHash) (transactions : List IndexedBlockTransaction) :
    EStateM NetworkError (Node F) (Option PeerMessage) := do
  match ← onNode (takeCompactBlock blockHash) with
  | none => return some (.chain (.getBlockByHash blockHash))
  | some compact =>
    let node ← get
    match compact.reconstruct paqus node.mempool transactions with
    | .ok (.complete block) =>
      onNode (applyBlock paqus block)
      return none
    | _ => return some (.chain (.getBlockByHash blockHash))

def handlePeerMessage (message : PeerMessage) :
    EStateM NetworkError (Node F) (Option PeerMessage) := do
  let node ← get
  match message with
  | .chain message => return (← handleMessage paqus message).map .chain
  | .version version =>
    match version.validateCompatibility api.params with
    | .ok _ => return some (.verAck (VersionInfo.ofParams api.params (localTip paqus node)))
    | .error reason => return some (.chain (.reject reason "incompatible peer version"))
  | .verAck _ | .snapshotManifest .. | .snapshotChunk .. | .peers _ => return none
  | .getSnapshotManifest height blockHash => snapshotManifestReply api height blockHash
  | .getSnapshotChunk height blockHash offset length =>
    snapshotChunkReply api height blockHash offset length
  | .inventory items =>
    let missing := items.filter node.lacks
    return if missing.isEmpty then none else some (.getData missing)
  | .getData items => return dataReply node items
  | .transaction transaction =>
    submitReceived paqus [transaction]
    return none
  | .transactions transactions =>
    submitReceived paqus transactions
    return none
  | .getMempoolInventory =>
    let hashes ← liftExcept (.node ∘ .codec) (node.mempool.values.mapM paqus.codec.transactionHash)
    return some (.inventory (hashes.map .transaction))
  | .reconcileMempool epoch shortIds =>
    return some (← liftExcept (.node ∘ .codec) (reconcileReply paqus node epoch shortIds))
  | .getPeers => return some (.peers [])
  | .compactBlock compact => compactBlockReply paqus compact
  | .getCompactBlockTransactions blockHash indexes =>
    return some (compactTransactionsReply paqus node blockHash indexes)
  | .compactBlockTransactions blockHash transactions =>
    completeCompactBlock paqus blockHash transactions

end PaqusNetwork
