import PaqusNetwork.Hex
import PaqusNetwork.Node.Run

namespace PaqusNetwork

open Numeric Effect

inductive ErrorKind
  | wouldBlock
  | timedOut
  | interrupted
  | unexpectedEof
  | invalidData
  | other
  deriving DecidableEq, Repr

structure IoError where
  kind : ErrorKind
  text : String
  deriving DecidableEq, Repr

inductive NetworkError
  | messageTooLarge
  | node (error : NodeError)
  | io (error : IoError)
  | serialization (error : IoError)
  deriving DecidableEq, Repr

/-- The transport does not look into the message. -/
structure NetworkEnvelope (M : Type) where
  magic : Vector UInt8 4
  requestId : UInt64
  responseTo : UInt64
  message : M
  deriving DecidableEq, Repr

/-- The network magic of the chain, `borsh::to_vec` and `try_from_slice` for envelopes. -/
structure EnvelopeCodec (M : Type) where
  networkMagic : Vector UInt8 4
  toVec : NetworkEnvelope M → Except IoError (List UInt8)
  tryFromSlice : List UInt8 → Except IoError (NetworkEnvelope M)

/-- Borsh reads back what it wrote, and every value has one representation. -/
structure EnvelopeCodec.Lawful {M : Type} (codec : EnvelopeCodec M) : Prop where
  roundTrip : ∀ {envelope bytes}, codec.toVec envelope = .ok bytes → codec.tryFromSlice bytes = .ok envelope
  canonical : ∀ {envelope bytes}, codec.tryFromSlice bytes = .ok envelope → codec.toVec envelope = .ok bytes

def maxNetworkMessageSize : Nat := 8 * 1024 * 1024

def messageLengthSize : Nat := 4

section Envelope

variable {M : Type} (codec : EnvelopeCodec M)

def toBytes (envelope : NetworkEnvelope M) : Except NetworkError (List UInt8) :=
  match codec.toVec envelope with
  | .error error => .error (.serialization error)
  | .ok bytes => if bytes.length > maxNetworkMessageSize then .error .messageTooLarge else .ok bytes

def fromBytes (bytes : List UInt8) : Except NetworkError (NetworkEnvelope M) :=
  if bytes.length > maxNetworkMessageSize then .error .messageTooLarge
  else
    match codec.tryFromSlice bytes with
    | .error error => .error (.serialization error)
    | .ok envelope =>
      if envelope.magic ≠ codec.networkMagic then
        .error (.serialization ⟨.invalidData, "network magic mismatch"⟩)
      else .ok envelope

def writeMessage (envelope : NetworkEnvelope M) : Except NetworkError (List UInt8) :=
  match toBytes codec envelope with
  | .error error => .error error
  | .ok bytes =>
    if bytes.length > u32Max then .error .messageTooLarge
    else .ok (bigEndian messageLengthSize bytes.length ++ bytes)

def writeMessages : List (NetworkEnvelope M) → Except NetworkError (List UInt8)
  | [] => .ok []
  | envelope :: rest =>
    match writeMessage codec envelope with
    | .error error => .error error
    | .ok bytes => (writeMessages rest).map (bytes ++ ·)

end Envelope

/-- What the `read` calls on a connection meet. -/
inductive Arrival
  | bytes (head : UInt8) (tail : List UInt8)
  | failed (error : IoError)
  | closed
  deriving DecidableEq, Repr

/-- The result of a reading function, with what is still to be read. A call that is `waiting` has
consumed all that has arrived so far. -/
inductive Read (α : Type)
  | done (value : α) (rest : List Arrival)
  | failed (error : NetworkError) (rest : List Arrival)
  | waiting
  deriving DecidableEq, Repr

def Read.bind {α β : Type} : Read α → (α → List Arrival → Read β) → Read β
  | .done value rest, next => next value rest
  | .failed error rest, _ => .failed error rest
  | .waiting, _ => .waiting

/-- A `read` call takes as many of the bytes that have arrived as fit into the rest of the buffer. -/
def readExactLogged (phase : String) (expected : Nat) (received : List UInt8) : List Arrival → Read (List UInt8)
  | [] => if expected ≤ received.length then .done received [] else .waiting
  | arrival :: rest =>
    let count := received.length
    if expected ≤ count then .done received (arrival :: rest)
    else
      match arrival with
      | .closed => .failed (.io ⟨.unexpectedEof,
          s!"peer closed while reading {phase}: expected_bytes={expected} received_bytes={count}"⟩)
          (arrival :: rest)
      | .failed error =>
        if error.kind = .interrupted then readExactLogged phase expected received rest
        else
          let text := error.text
          .failed (.io ⟨error.kind,
            s!"failed while reading {phase}: expected_bytes={expected} received_bytes={count}: {text}"⟩)
            rest
      | .bytes head tail =>
        let chunk := head :: tail
        match chunk.drop (expected - count) with
        | [] => readExactLogged phase expected (received ++ chunk) rest
        | next :: later =>
          .done (received ++ chunk.take (expected - count)) (.bytes next later :: rest)

section Reader

variable {M : Type} (codec : EnvelopeCodec M)

def readMessage (arrivals : List Arrival) : Read (NetworkEnvelope M) :=
  (readExactLogged "length" messageLengthSize [] arrivals).bind fun lengthBytes rest =>
    let length := fromBigEndian lengthBytes
    if length > maxNetworkMessageSize then .failed .messageTooLarge rest
    else
      (readExactLogged "payload" length [] rest).bind fun bytes rest =>
        match fromBytes codec bytes with
        | .ok envelope => .done envelope rest
        | .error error => .failed error rest

/-- The reader thread goes on after a read that timed out. -/
def NetworkError.retried : NetworkError → Bool
  | .io error => error.kind = .wouldBlock || error.kind = .timedOut
  | _ => false

def peerReader : Nat → List Arrival → List (NetworkEnvelope M)
  | 0, _ => []
  | fuel + 1, arrivals =>
    match readMessage codec arrivals with
    | .waiting => []
    | .done envelope rest => envelope :: peerReader fuel rest
    | .failed error rest => if error.retried then peerReader fuel rest else []

def Arrival.size : Arrival → Nat
  | .bytes _ tail => tail.length + 1
  | _ => 1

def arrivalsSize (arrivals : List Arrival) : Nat := (arrivals.map Arrival.size).sum

/-- The channel of the reader thread. Every turn of the loop consumes something. -/
def spawnPeerReader (arrivals : List Arrival) : List (NetworkEnvelope M) :=
  peerReader codec (arrivalsSize arrivals + 1) arrivals

end Reader

/-- `work` is the cumulative work, which the source sends as eight limbs. -/
structure TipInfo where
  height : Nat
  hash : BlockHash
  work : Nat
  deriving DecidableEq, Repr

inductive RejectReason
  | protocolVersionMismatch
  | chainMismatch
  | networkMismatch
  | consensusMismatch
  | invalidMessage
  deriving DecidableEq, Repr

inductive NetworkMessage
  | reject (reason : RejectReason) (message : String)
  | ping (nonce : UInt64)
  | pong (nonce : UInt64)
  | getTip
  | tip (info : TipInfo)
  | getBlockByHeight (height : Nat)
  | getBlocksByHeightRange (start limit : Nat)
  | getBlockHeadersByHeightRange (start limit : Nat)
  | getCommonAncestor (locator : List BlockHash)
  | commonAncestor (ancestor : Option TipInfo)
  | getBlockByHash (hash : BlockHash)
  | block (block : Block)
  | blocks (blocks : List Block)
  | blockHeaders (headers : List BlockHeader)
  deriving DecidableEq, Repr

def maxRangeResponseItems : Nat := 64

def maxBlocksPerBatch : Nat := 32

def maxBlockLocatorHashes : Nat := 32

def mapWhile {α : Type} (item : Nat → Option α) (start : Nat) : Nat → List α
  | 0 => []
  | count + 1 =>
    match item start with
    | none => []
    | some value => value :: mapWhile item (start + 1) count

def heightRange {α : Type} (item : Nat → Option α) (start limit : Nat) : List α :=
  mapWhile item start (saturatingAdd start (min limit maxRangeResponseItems) - start)

variable {F : Type} (paqus : Paqus F)

def hashHex (hash : BlockHash) : String := hexEncode (bigEndian paqus.codec.hashSize hash)

def ForkNode.tipInfo (node : ForkNode) (hash : BlockHash) : TipInfo := ⟨node.height, hash, node.cumulativeWork⟩

def tipWork (node : Node F) : Option Nat :=
  (node.ledger.tipHash.bind (paqus.fork.get node.forkChoice)).map ForkNode.cumulativeWork

def localTip (node : Node F) : Option TipInfo := do
  return ⟨← node.ledger.tipHeight, ← node.ledger.tipHash, ← tipWork paqus node⟩

def findAncestor (node : Node F) (locator : List BlockHash) : Option TipInfo :=
  locator.findSome? fun hash => (paqus.fork.get node.forkChoice hash).map (·.tipInfo hash)

/-- `handle_message` asks the node to apply each block and stops at the first error. -/
def applyReceived : List Block → EStateM NetworkError (Node F) Unit
  | [] => pure ()
  | block :: rest => do
    focus id (fun next _ => next) .node (applyBlock paqus block)
    applyReceived rest

def handleMessage (message : NetworkMessage) :
    EStateM NetworkError (Node F) (Option NetworkMessage) := do
  let node ← get
  match message with
  | .reject _ _ | .pong _ | .tip _ | .commonAncestor _ | .blockHeaders _ => return none
  | .ping nonce => return some (.pong nonce)
  | .getTip => return (localTip paqus node).map .tip
  | .getBlockByHeight height => return (node.ledger.block height).map .block
  | .getBlocksByHeightRange start limit =>
    return some (.blocks (heightRange node.ledger.block start limit))
  | .getBlockHeadersByHeightRange start limit =>
    return some (.blockHeaders (heightRange (node.ledger.chain.headers[·]?) start limit))
  | .getCommonAncestor locator => return some (.commonAncestor (findAncestor paqus node locator))
  | .getBlockByHash hash =>
    match node.cache.blockByHash hash with
    | some block => return some (.block block)
    | none => return some (.reject .invalidMessage ("block not found: " ++ hashHex paqus hash))
  | .block block =>
    applyReceived paqus [block]
    return none
  | .blocks blocks =>
    applyReceived paqus blocks
    return none

inductive HeaderSyncError
  | request (text : String)
  | notHeaders (height : Nat)
  | emptyRange (height : Nat)
  | wrongHeight (found expected : Nat)
  | unexpectedParent (height : Nat) (parent : BlockHash)
  | codec (error : CodecError)
  deriving DecidableEq, Repr

def HeaderSyncError.display (texts : ErrorTexts) : HeaderSyncError → String
  | request text => text
  | notHeaders height => s!"peer did not return header range starting at height {height}"
  | emptyRange height => s!"peer returned empty header range starting at height {height}"
  | wrongHeight found expected =>
    s!"peer returned header height {found} while syncing height {expected}"
  | unexpectedParent height parent =>
    let text := hashHex paqus parent
    s!"peer returned header {height} with unexpected parent {text}"
  | codec error => texts.codec error

structure HeaderSync where
  nextHeight : Nat
  previousHash : BlockHash
  headers : List BlockHeader
  deriving DecidableEq, Repr

def HeaderSync.acceptBatch (sync : HeaderSync) : List BlockHeader → Except HeaderSyncError HeaderSync
  | [] => .ok sync
  | header :: rest =>
    if header.height ≠ sync.nextHeight then .error (.wrongHeight header.height sync.nextHeight)
    else if header.previousHash ≠ sync.previousHash then
      .error (.unexpectedParent header.height header.previousHash)
    else
      match paqus.codec.headerHash header with
      | .error error => .error (.codec error)
      | .ok hash => acceptBatch
          ⟨saturatingAdd sync.nextHeight 1, hash, sync.headers ++ [header]⟩ rest

/-- The loop of `request_headers` against a peer that answers requests; `none` when the fuel does
not suffice. -/
def requestHeadersLoop (request : NetworkMessage → Except String NetworkMessage) (target : Nat) :
    Nat → HeaderSync → Option (Except HeaderSyncError (List BlockHeader))
  | 0, sync => if sync.nextHeight ≤ target then none else some (.ok sync.headers)
  | fuel + 1, sync =>
    if sync.nextHeight ≤ target then
      let remaining := saturatingAdd (target - sync.nextHeight) 1
      match request (.getBlockHeadersByHeightRange sync.nextHeight (min remaining maxBlocksPerBatch)) with
      | .error text => some (.error (.request text))
      | .ok (.blockHeaders batch) =>
        if batch.isEmpty then some (.error (.emptyRange sync.nextHeight))
        else
          match sync.acceptBatch paqus batch with
          | .error error => some (.error error)
          | .ok next => requestHeadersLoop request target fuel next
      | .ok _ => some (.error (.notHeaders sync.nextHeight))
    else some (.ok sync.headers)

def requestHeaders (request : NetworkMessage → Except String NetworkMessage) (start target : Nat)
    (anchorHash : BlockHash) : Option (Except HeaderSyncError (List BlockHeader)) :=
  requestHeadersLoop paqus request target (target + 1 - start) ⟨start, anchorHash, []⟩

/-- What a node that waits for the response gets from a node whose state does not change between the
requests. -/
def Node.answer (node : Node F) (message : NetworkMessage) : Except String NetworkMessage :=
  match outcome (handleMessage paqus message node) with
  | .ok (some response) => .ok response
  | _ => .error "peer request timed out"

/-- The loop of `block_locator`: the hashes at the heights from the tip down, in steps that double
once there are ten of them. -/
def blockLocatorLoop (chain : Chain) : Nat → Nat → Nat → List BlockHash → Except CodecError (List BlockHash)
  | 0, _, _, locator => .ok locator
  | fuel + 1, height, step, locator => do
    let locator ← match chain.headers[height]? with
      | some header => (locator ++ [·]) <$> paqus.codec.headerHash header
      | none => pure locator
    if height = 0 ∨ locator.length ≥ maxBlockLocatorHashes then return locator
    blockLocatorLoop chain fuel (height - step) (if locator.length ≥ 10 then saturatingMul step 2 else step) locator

def blockLocator (node : Node F) : Except CodecError (List BlockHash) :=
  match node.ledger.tipHeight with
  | none => .ok []
  | some tipHeight => do
    let chain := node.ledger.chain
    let locator ← blockLocatorLoop paqus chain (tipHeight + 1) tipHeight 1 []
    match locator.getLast?, chain.headers[0]? with
    | some last, some genesis =>
      let hash ← paqus.codec.headerHash genesis
      return if hash = last then locator else locator ++ [hash]
    | _, _ => return locator

def maxMissingParentFetchesPerPoll : Nat := 64

/-- The locals of `request_missing_parent_blocks`. -/
structure Progress where
  requested : Bool
  fetched : Nat
  missing : Nat
  deriving DecidableEq, Repr

def Progress.asked (progress : Progress) : Progress :=
  { progress with requested := true, fetched := saturatingAdd progress.fetched 1 }

/-- One hash of a batch comes up: the node then, the calls that others make until the peer has answered, and
the answer. -/
structure Turn (F : Type) where
  node : Node F
  meanwhile : List NodeCall
  progress : Progress
  hash : BlockHash
  rest : List BlockHash
  answer : Except String NetworkMessage

/-- The connection to a peer and the node behind its lock. `states`, `given`, `taken` and `turns` are history
variables. -/
structure Session (F : Type) where
  node : Node F
  address : String
  responses : Nat → NetworkMessage → Except String NetworkMessage
  meanwhile : Nat → List NodeCall
  requests : Nat
  states : List (Node F)
  given : List Block
  taken : List BlockHash
  turns : List (Turn F)

abbrev SessionM (F : Type) := EStateM String (Session F)

def Session.start {F : Type} (node : Node F) (address : String)
    (responses : Nat → NetworkMessage → Except String NetworkMessage) (meanwhile : Nat → List NodeCall) :
    Session F :=
  ⟨node, address, responses, meanwhile, 0, [], [], [], []⟩

variable {F : Type} (paqus : Paqus F)

def locked {α : Type} (text : NodeError → String) (program : NodeM F α) : SessionM F α := do
  modify fun session => { session with states := session.states ++ [session.node] }
  focus (fun session => session.node) (fun node session => { session with node }) text program

def requestPeer (message : NetworkMessage) : SessionM F NetworkMessage := do
  let session ← get
  set { session with
    node := afterCalls paqus session.node (session.meanwhile session.requests)
    requests := session.requests + 1 }
  liftExcept id (session.responses session.requests message)

def requestBlockByHash (hash : BlockHash) : SessionM F Bool := do
  match ← requestPeer paqus (.getBlockByHash hash) with
  | .block block =>
    let address := (← get).address
    modify fun session => { session with given := session.given ++ [block] }
    locked (fun error => "failed to apply missing parent from " ++ address ++ ": " ++
      error.display paqus.texts) (applyBlock paqus block)
    return true
  | .reject _ _ => return false
  | _ => throw ("peer did not return block hash " ++ hashHex paqus hash)

def retry (hash : BlockHash) : SessionM F Unit :=
  locked (NodeError.display paqus.texts) (retryMissingParentRequest paqus hash)

def Session.turn (session : Session F) (progress : Progress) (hash : BlockHash) (rest : List BlockHash) : Turn F :=
  ⟨session.node, session.meanwhile session.requests, progress, hash, rest,
    session.responses session.requests (.getBlockByHash hash)⟩

def Session.recorded (session : Session F) (turn : Turn F) : Session F :=
  { session with turns := session.turns ++ [turn], states := session.states ++ [session.node] }

def fetchBatch : List BlockHash → Progress → SessionM F Progress
  | [], progress => return progress
  | hash :: rest, progress => do
    modify fun session => session.recorded (session.turn progress hash rest)
    if progress.fetched ≥ maxMissingParentFetchesPerPoll then
      retry paqus hash
      return progress
    else
      let asked := progress.asked
      match ← attempt (requestBlockByHash paqus hash) with
      | .ok true =>
        if asked.missing > 0 then
          retry paqus hash
          return asked
        else
          fetchBatch rest asked
      | .ok false =>
        retry paqus hash
        return { asked with missing := saturatingAdd asked.missing 1 }
      | .error error =>
        retry paqus hash
        throw error

/-- The loop over the batches. A batch that is not empty counts at least one fetch. -/
def fetchBatches : Nat → Progress → SessionM F Progress
  | 0, progress => return progress
  | rounds + 1, progress =>
    if progress.fetched < maxMissingParentFetchesPerPoll then do
      let hashes ← locked (NodeError.display paqus.texts) drainMissingParentRequests
      modify fun session => { session with taken := session.taken ++ hashes }
      if hashes.isEmpty then
        return progress
      else
        let next ← fetchBatch paqus hashes progress
        fetchBatches rounds next
    else
      return progress

def requestMissingParentBlocks : SessionM F Bool := do
  let progress ← fetchBatches paqus maxMissingParentFetchesPerPoll ⟨false, 0, 0⟩
  return progress.requested

end PaqusNetwork
