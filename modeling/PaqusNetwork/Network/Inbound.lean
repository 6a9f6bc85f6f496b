import PaqusNetwork.Borsh
import PaqusNetwork.Network.Budget
import PaqusNetwork.Network.Channel

namespace PaqusNetwork

open Borsh Numeric Effect

/-- The layout of the types of the protocol crate, and `try_from_slice` for envelopes. -/
structure WireApi where
  hash : Hash → Value
  header : BlockHeader → Value
  block : Block → Value
  transaction : SignedProtocolTransaction → Value
  coinbase : CoinbaseTransaction → Value
  genesisAllocation : GenesisAllocation → Value
  tryFromSlice : List UInt8 → Except IoError (NetworkEnvelope PeerMessage)

def RejectReason.tag : RejectReason → UInt8
  | protocolVersionMismatch => 0
  | chainMismatch => 1
  | networkMismatch => 2
  | consensusMismatch => 3
  | invalidMessage => 4

def SnapshotCompression.tag : SnapshotCompression → UInt8
  | none => 0
  | rle => 1

def magicValue (magic : Vector UInt8 4) : Value :=
  .record (.byte magic[0]) [.byte magic[1], .byte magic[2], .byte magic[3]]

def workValue (work : Nat) : Value :=
  .record (.u64 (work / 2 ^ 448)) ([384, 320, 256, 192, 128, 64, 0].map fun shift => .u64 (work / 2 ^ shift))

namespace WireApi

variable (wire : WireApi)

def tipInfo (info : TipInfo) : Value := .record (.u64 info.height) [wire.hash info.hash, workValue info.work]

def versionInfo (info : VersionInfo) : Value :=
  .record (.byte (UInt8.ofNat info.protocolVersion)) [.byte (UInt8.ofNat info.wireFormatVersion),
    .u32 info.chainId, .string info.chainName, .string info.protocolStage, .string info.powAlgorithm,
    .string info.difficultyAlgorithm, magicValue info.networkMagic, .option wire.tipInfo info.tip]

def inventoryItem : InventoryItem → Value
  | .block hash => .variant 0 [wire.hash hash]
  | .transaction hash => .variant 1 [wire.hash hash]

def compactBlock (compact : CompactBlock) : Value :=
  .record (wire.header compact.header) [.vec (compact.genesisAllocations.map wire.genesisAllocation),
    .option wire.coinbase compact.coinbase, .vec (compact.shortIds.map .u64)]

def indexedTransaction (item : IndexedBlockTransaction) : Value :=
  .record (.u32 item.index) [wire.transaction item.transaction]

def message : PeerMessage → Value
  | .version info => .variant 0 [wire.versionInfo info]
  | .verAck info => .variant 1 [wire.versionInfo info]
  | .chain (.reject reason text) => .variant 2 [.byte reason.tag, .string text]
  | .chain (.ping nonce) => .variant 3 [.u64 nonce.toNat]
  | .chain (.pong nonce) => .variant 4 [.u64 nonce.toNat]
  | .chain .getTip => .variant 5 []
  | .chain (.tip info) => .variant 6 [wire.tipInfo info]
  | .chain (.getBlockByHeight height) => .variant 7 [.u64 height]
  | .chain (.getBlocksByHeightRange start limit) => .variant 8 [.u64 start, .u32 limit]
  | .chain (.getBlockHeadersByHeightRange start limit) => .variant 9 [.u64 start, .u32 limit]
  | .chain (.getCommonAncestor locator) => .variant 10 [.vec (locator.map wire.hash)]
  | .chain (.commonAncestor ancestor) => .variant 11 [.option wire.tipInfo ancestor]
  | .chain (.getBlockByHash hash) => .variant 12 [wire.hash hash]
  | .chain (.block block) => .variant 13 [wire.block block]
  | .chain (.blocks blocks) => .variant 14 [.vec (blocks.map wire.block)]
  | .chain (.blockHeaders headers) => .variant 15 [.vec (headers.map wire.header)]
  | .getSnapshotManifest height blockHash => .variant 16 [.u64 height, wire.hash blockHash]
  | .snapshotManifest height blockHash size contentHash chunkSize =>
    .variant 17 [.u64 height, wire.hash blockHash, .u64 size, wire.hash contentHash, .u32 chunkSize]
  | .getSnapshotChunk height blockHash offset length =>
    .variant 18 [.u64 height, wire.hash blockHash, .u64 offset, .u32 length]
  | .snapshotChunk height blockHash offset compression uncompressedLength bytes =>
    .variant 19 [.u64 height, wire.hash blockHash, .u64 offset, .byte compression.tag,
      .u32 uncompressedLength, .bytes bytes]
  | .inventory items => .variant 20 [.vec (items.map wire.inventoryItem)]
  | .getData items => .variant 21 [.vec (items.map wire.inventoryItem)]
  | .transaction transaction => .variant 22 [wire.transaction transaction]
  | .transactions transactions => .variant 23 [.vec (transactions.map wire.transaction)]
  | .getMempoolInventory => .variant 24 []
  | .reconcileMempool epoch shortIds => .variant 25 [.u64 epoch, .vec (shortIds.map .u64)]
  | .getPeers => .variant 26 []
  | .peers addresses => .variant 27 [.vec (addresses.map .string)]
  | .compactBlock compact => .variant 28 [wire.compactBlock compact]
  | .getCompactBlockTransactions blockHash indexes =>
    .variant 29 [wire.hash blockHash, .vec (indexes.map .u32)]
  | .compactBlockTransactions blockHash transactions =>
    .variant 30 [wire.hash blockHash, .vec (transactions.map wire.indexedTransaction)]

def envelope (envelope : NetworkEnvelope PeerMessage) : Value :=
  .record (magicValue envelope.magic)
    [.u64 envelope.requestId.toNat, .u64 envelope.responseTo.toNat, wire.message envelope.message]

def codec (networkMagic : Vector UInt8 4) : EnvelopeCodec PeerMessage where
  networkMagic
  toVec envelope :=
    match (wire.envelope envelope).encode with
    | some bytes => .ok bytes
    | none => .error ⟨.other, "invalid input parameter"⟩
  tryFromSlice := wire.tryFromSlice

end WireApi

def NetworkEnvelope.response {M : Type} (magic : Vector UInt8 4) (responseTo : UInt64) (message : M) :
    NetworkEnvelope M :=
  ⟨magic, 0, responseTo, message⟩

def envelopeBytes : Nat := 20

variable {wire : WireApi}

@[simp] theorem size_magicValue (magic : Vector UInt8 4) : (magicValue magic).size = 4 := rfl

@[simp] theorem size_workValue (work : Nat) : (workValue work).size = 64 := rfl

@[simp] theorem size_variant (tag : UInt8) (fields : List Value) :
    (Value.variant tag fields).size = 1 + Value.sizeAll fields := by
  rw [Value.variant, Value.size, Value.size_byte]

theorem WireApi.size_envelope (envelope : NetworkEnvelope PeerMessage) :
    (wire.envelope envelope).size = envelopeBytes + (wire.message envelope.message).size := by
  simp only [WireApi.envelope, Value.size, Value.sizeAll, size_magicValue, Value.size_u64, envelopeBytes]
  omega

variable {magic : Vector UInt8 4} {envelope : NetworkEnvelope PeerMessage}

theorem writeMessage_ok_iff :
    (∃ bytes, writeMessage (wire.codec magic) envelope = .ok bytes) ↔
      envelopeBytes + (wire.message envelope.message).size ≤ maxNetworkMessageSize := by
  rw [← WireApi.size_envelope]
  have hmax : maxNetworkMessageSize < u32Max := by decide
  constructor
  · rintro ⟨bytes, h⟩
    simp only [writeMessage, toBytes, WireApi.codec] at h
    cases hencode : (wire.envelope envelope).encode with
    | none => rw [hencode] at h; cases h
    | some encoded =>
      simp only [hencode] at h
      rw [← Value.length_encode hencode]
      by_contra hlarge
      rw [if_pos (by omega)] at h
      cases h
  · intro hsize
    obtain ⟨encoded, hencode⟩ := @Value.exists_encode (wire.envelope envelope) (by omega)
    have hlength := Value.length_encode hencode
    simp only [writeMessage, toBytes, WireApi.codec, hencode]
    rw [if_neg (by omega)]
    simp only
    rw [if_neg (by omega)]
    exact ⟨_, rfl⟩

theorem writeMessage_refuses (hlarge : maxNetworkMessageSize < envelopeBytes + (wire.message envelope.message).size)
    (hcounted : envelopeBytes + (wire.message envelope.message).size ≤ u32Max) :
    writeMessage (wire.codec magic) envelope = .error .messageTooLarge := by
  rw [← WireApi.size_envelope] at hlarge hcounted
  obtain ⟨encoded, hencode⟩ := Value.exists_encode hcounted
  have hlength := Value.length_encode hencode
  simp only [writeMessage, toBytes, WireApi.codec, hencode]
  rw [if_pos (by omega)]

/-- What a turn of the loop meets beside the bytes. -/
structure InboundTurn (F : Type) where
  shutdown : Bool
  meanwhile : Node F → Node F
  poisoned : Bool
  knownPeerInfos : List String
  write : Except IoError Unit

/-- Why the loop ends after a message was read. -/
inductive InboundStop
  | rateLimited
  | lockPoisoned
  | handleFailed (error : NetworkError)
  | writeFailed (error : NetworkError)
  deriving DecidableEq, Repr

/-- The node and the variables of the loop. `handed` is a history variable: the envelopes whose messages were
given to `handle_message`. -/
structure InboundPeer (F : Type) where
  node : Node F
  budget : RequestBudget
  handed : List (NetworkEnvelope PeerMessage)

abbrev InboundM (F : Type) := EStateM InboundStop (InboundPeer F)

def RequestBudget.requested (budget : RequestBudget) : RequestBudget :=
  { budget with requestCount := min (budget.requestCount + 1) u32Max }

section Loop

variable {F : Type} (paqus : Paqus F) (api : PeerApi) (codec : EnvelopeCodec PeerMessage)

def writeResponse (turn : InboundTurn F) (requestId : UInt64) (response : PeerMessage) : InboundM F Unit := do
  let _ ← liftExcept .writeFailed (writeMessage codec (.response codec.networkMagic requestId response))
  liftExcept (.writeFailed ∘ .io) turn.write

def serveEnvelope (turn : InboundTurn F) (envelope : NetworkEnvelope PeerMessage) : InboundM F Unit := do
  modify fun peer => { peer with budget := peer.budget.requested }
  let peer ← get
  ensure .rateLimited (peer.budget.requestCount ≤ maxPeerRequestsPerWindow)
  if envelope.message = .getPeers then
    writeResponse codec turn envelope.requestId (.peers turn.knownPeerInfos)
  else
    ensure .lockPoisoned (!turn.poisoned)
    modify fun peer => { peer with node := turn.meanwhile peer.node, handed := peer.handed ++ [envelope] }
    let response ← focus InboundPeer.node (fun node peer => { peer with node }) .handleFailed
      (handlePeerMessage paqus api envelope.message)
    match response with
    | some response => writeResponse codec turn envelope.requestId response
    | none => return ()

variable (turns : Nat → InboundTurn F) (clock : Nat → Nat)

/-- The loop of `spawn_inbound_peer`. A read that times out ends it like every other error. -/
def inboundLoop : Nat → Nat → List Arrival → InboundPeer F → InboundPeer F
  | 0, _, _, peer => peer
  | fuel + 1, index, arrivals, peer =>
    if (turns index).shutdown then peer
    else
      let peer := { peer with budget := peer.budget.renewed clock }
      match readMessage codec arrivals with
      | .done envelope rest =>
        match serveEnvelope paqus api codec (turns index) envelope peer with
        | .ok _ peer => inboundLoop fuel (index + 1) rest peer
        | .error _ peer => peer
      | .failed _ _ | .waiting => peer

/-- The loop as far as it comes with what arrives. Every turn consumes something. -/
def spawnInboundPeer (arrivals : List Arrival) (peer : InboundPeer F) : InboundPeer F :=
  inboundLoop paqus api codec turns clock (arrivalsSize arrivals + 1) 0 arrivals peer

/-- So many envelopes stay within the limit of each window. -/
def RequestBudget.Admits (clock : Nat → Nat) : Nat → RequestBudget → Prop
  | 0, _ => True
  | count + 1, budget =>
    (budget.renewed clock).requested.Within ∧ Admits clock count (budget.renewed clock).requested

/-- Every envelope is given to `handle_message`, and the loop goes on after each but the last. -/
def AllServed : Nat → InboundPeer F → List (NetworkEnvelope PeerMessage) → Prop
  | _, _, [] => True
  | index, peer, envelope :: rest =>
    (turns index).shutdown = false ∧ (turns index).poisoned = false ∧ envelope.message ≠ .getPeers ∧
      (rest ≠ [] → ∃ next, serveEnvelope paqus api codec (turns index) envelope
        { peer with budget := peer.budget.renewed clock } = .ok () next ∧ AllServed (index + 1) next rest)

end Loop

section Serve

variable {F : Type} {paqus : Paqus F} {api : PeerApi} {codec : EnvelopeCodec PeerMessage}
  {turn : InboundTurn F} {envelope : NetworkEnvelope PeerMessage} {peer : InboundPeer F}

theorem writeResponse_keeps (requestId : UInt64) (response : PeerMessage) (I : InboundPeer F → Prop) :
    Keeps I (writeResponse codec turn requestId response) :=
  Keeps.bind_liftExcept fun _ _ => Keeps.liftExcept _ _

def InboundPeer.Kept (budget : RequestBudget) (handed : List (NetworkEnvelope PeerMessage)) (peer : InboundPeer F) :
    Prop :=
  peer.budget = budget ∧ peer.handed = handed

theorem serveEnvelope_state (hbudget : peer.budget.requested.Within) :
    (state (serveEnvelope paqus api codec turn envelope peer)).Kept peer.budget.requested
      (if envelope.message = .getPeers ∨ turn.poisoned = true then peer.handed
        else peer.handed ++ [envelope]) := by
  have hcount : peer.budget.requested.requestCount ≤ maxPeerRequestsPerWindow := hbudget
  unfold serveEnvelope
  rw [modify_bind, get_bind]
  dsimp only
  rw [decide_eq_true hcount, ensure_true, pure_bind]
  by_cases hpeers : envelope.message = .getPeers
  · rw [if_pos hpeers, if_pos (.inl hpeers)]
    exact writeResponse_keeps _ _ _ _ ⟨rfl, rfl⟩
  · rw [if_neg hpeers]
    cases hpoisoned : turn.poisoned with
    | true => exact ⟨rfl, (if_pos (.inr rfl)).symm⟩
    | false =>
      rw [if_neg (by simp [hpeers]), Bool.not_false, ensure_true, pure_bind, modify_bind]
      refine Keeps.bind (fun peer h => ?_) (fun response => ?_) _ ⟨rfl, rfl⟩
      · rw [state_focus]
        exact h
      cases response with
      | none => exact Keeps.pure ()
      | some response => exact writeResponse_keeps _ _ _

theorem serveEnvelope_poisoned (hpeers : envelope.message ≠ .getPeers) (hpoisoned : turn.poisoned = true)
    (peer : InboundPeer F) :
    ∃ stop next, serveEnvelope paqus api codec turn envelope peer = .error stop next := by
  unfold serveEnvelope
  rw [modify_bind, get_bind]
  dsimp only
  rw [if_neg hpeers, hpoisoned, Bool.not_true, ensure_false]
  by_cases hcount : peer.budget.requested.requestCount ≤ maxPeerRequestsPerWindow
  · rw [decide_eq_true hcount]
    exact ⟨_, _, rfl⟩
  · rw [decide_eq_false hcount]
    exact ⟨_, _, rfl⟩

theorem serveEnvelope_handed (peer : InboundPeer F) :
    ∃ more, (state (serveEnvelope paqus api codec turn envelope peer)).handed = peer.handed ++ more ∧
      ∀ later ∈ more, later.message ≠ .getPeers := by
  by_cases hbudget : peer.budget.requested.requestCount ≤ maxPeerRequestsPerWindow
  · have hstate := (@serveEnvelope_state _ paqus api codec turn envelope peer hbudget).2
    split at hstate
    next => exact ⟨[], by rw [hstate, List.append_nil], fun _ h => absurd h List.not_mem_nil⟩
    next hother =>
      refine ⟨[envelope], hstate, fun later hlater => ?_⟩
      rw [List.mem_singleton.mp hlater]
      exact fun hpeers => hother (.inl hpeers)
  · refine ⟨[], ?_, fun _ h => absurd h List.not_mem_nil⟩
    unfold serveEnvelope
    rw [modify_bind, get_bind]
    dsimp only
    rw [decide_eq_false hbudget, ensure_false, List.append_nil]
    rfl

end Serve

end PaqusNetwork
