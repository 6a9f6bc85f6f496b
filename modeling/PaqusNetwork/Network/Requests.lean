import PaqusNetwork.Network.Inbound

namespace PaqusNetwork

open Effect Numeric

/-- In nanoseconds. -/
def persistentPeerTimeout : Nat := 30 * 1000000000

/-- What `recv_timeout` gives while the channel is open. -/
inductive Receipt
  | envelope (envelope : NetworkEnvelope PeerMessage)
  | timeout
  deriving DecidableEq, Repr

/-- What the operations on a connection meet, at each of the moments when they look. -/
structure LinkEnv (F : Type) where
  shutdown : Nat → Bool
  now : Nat → Nat
  windowClock : Nat → Nat
  write : Nat → NetworkEnvelope PeerMessage → Except String Unit
  poisoned : Nat → Bool
  meanwhile : Nat → Node F → Node F
  networkText : NetworkError → String
  nodeText : NodeError → String
  compactText : CompactBlockError → String
  codecText : CodecError → String

/-- `fuel` is no error of the source: it says that a bound on the depth of the calls was too small. -/
inductive LinkError
  | failed (text : String)
  | fuel
  deriving DecidableEq, Repr

/-- A `PeerConnection` with all that its channel will give until it is closed. `delivered`, `given` and `sent` are
history variables: the messages that calls have returned, each with the id of its call, the blocks given to
`apply_block`, and the envelopes written. -/
structure PeerLink (F : Type) where
  node : Node F
  attached : Bool
  requestIds : Nat
  pendingResponses : BTreeMap Nat PeerMessage
  budget : RequestBudget
  channel : List Receipt
  moments : Nat
  delivered : List (Nat × PeerMessage)
  given : List Block
  sent : List (NetworkEnvelope PeerMessage)

/-- The connection that `connect` makes. -/
def PeerLink.connect {F : Type} (node : Node F) (started : Nat) (channel : List Receipt) : PeerLink F :=
  ⟨node, false, 1, ∅, ⟨started, 0, 0⟩, channel, 0, [], [], []⟩

abbrev LinkM (F : Type) := EStateM LinkError (PeerLink F)

section Operations

variable {F : Type} (paqus : Paqus F) (api : PeerApi) (env : LinkEnv F)

def failWith {ε : Type} (text : String) (display : ε → String) (error : ε) : LinkError :=
  .failed (text ++ display error)

def moment : LinkM F Nat := do
  let link ← get
  modify fun link => { link with moments := link.moments + 1 }
  return link.moments

def ensureRunning : LinkM F Unit := do
  let time ← moment
  ensure (.failed "node shutdown requested") (!env.shutdown time)

def linkBudget : LinkM F Unit :=
  focus PeerLink.budget (fun budget link => { link with budget }) .failed
    (checkRequestBudget "peer request rate limit exceeded" env.windowClock)

def writeEnvelope (text : String) (envelope : NetworkEnvelope PeerMessage) : LinkM F Unit := do
  let time ← moment
  liftExcept (failWith text id) (env.write time envelope)
  modify fun link => { link with sent := link.sent ++ [envelope] }

def sendOnLink (message : PeerMessage) : LinkM F Unit := do
  ensureRunning env
  linkBudget env
  writeEnvelope env "send failed: " ⟨api.params.networkMagic, 0, 0, message⟩

/-- `given` says which blocks the program gives to `apply_block`. -/
def underLock {ε α : Type} (text : ε → LinkError) (given : Node F → List Block) (program : EStateM ε (Node F) α) :
    LinkM F α := do
  let time ← moment
  ensure (.failed "node state lock poisoned") (!env.poisoned time)
  modify fun link => { link with node := env.meanwhile time link.node }
  modify fun link => { link with given := link.given ++ given link.node }
  focus PeerLink.node (fun node link => { link with node }) text program

def applyUnderLock (text : String) (block : Block) : LinkM F Unit :=
  underLock env (failWith text env.nodeText) (fun _ => [block]) (applyBlock paqus block)

/-- The blocks are given to `apply_block` until it refuses one. -/
def appliedInOrder : List Block → Node F → List Block
  | [], _ => []
  | block :: rest, node =>
    block :: match applyBlock paqus block node with
      | .ok _ next => appliedInOrder rest next
      | .error _ _ => []

def completedBlock : Except CompactBlockError CompactBlockReconstruction → List Block
  | .ok (.complete block) => [block]
  | _ => []

/-- The blocks that `handle_message` gives to `apply_block`. -/
def blocksGiven (message : PeerMessage) (node : Node F) : List Block :=
  match message with
  | .chain (.block block) => [block]
  | .chain (.blocks blocks) => appliedInOrder paqus blocks node
  | .compactBlock compact =>
    match compact.blockHash paqus with
    | .ok blockHash =>
      if (node.cache.blockByHash blockHash).isSome then []
      else completedBlock (compact.reconstruct paqus node.mempool [])
    | .error _ => []
  | .compactBlockTransactions blockHash transactions =>
    match outcome (takeCompactBlock blockHash node) with
    | .ok (some compact) => completedBlock (compact.reconstruct paqus node.mempool transactions)
    | _ => []
  | _ => []

def fallbackBlock : PeerMessage → Except String Block
  | .chain (.block block) => .ok block
  | .chain (.blocks [block]) => .ok block
  | .chain (.reject _ message) => .error ("compact full-block fallback rejected: " ++ message)
  | _ => .error "compact full-block fallback returned invalid response"

section Handlers

variable (request : PeerMessage → LinkM F PeerMessage)

def fetchFullCompactFallback (blockHash : BlockHash) : LinkM F Unit := do
  let response ← request (.chain (.getBlockByHash blockHash))
  let block ← liftExcept .failed (fallbackBlock response)
  let hash ← liftExcept (failWith "fallback block hash failed: " env.codecText) (paqus.blockHash block)
  ensure (.failed "compact full-block fallback hash mismatch") (hash = blockHash)
  applyUnderLock paqus env "fallback block rejected: " block

def reconstructUnderLock (compact : CompactBlock) (supplied : List IndexedBlockTransaction) :
    LinkM F (Except CompactBlockError CompactBlockReconstruction) :=
  underLock env .failed (fun _ => []) (do
    let node ← get
    return compact.reconstruct paqus node.mempool supplied)

def recoverCompactBlock (compact : CompactBlock) (blockHash : BlockHash) (missing : List Nat) : LinkM F Unit := do
  match ← attempt (request (.getCompactBlockTransactions blockHash missing)) with
  | .ok (.compactBlockTransactions responseHash transactions) =>
    if responseHash ≠ blockHash then fetchFullCompactFallback paqus env request blockHash
    else
      match ← reconstructUnderLock paqus env compact transactions with
      | .ok (.complete block) =>
        applyUnderLock paqus env "compact block rejected: " block
      | _ => fetchFullCompactFallback paqus env request blockHash
  | _ => fetchFullCompactFallback paqus env request blockHash

def handleCompactBlock (compact : CompactBlock) : LinkM F Unit := do
  let blockHash ← liftExcept (failWith "invalid compact block: " env.compactText) (compact.blockHash paqus)
  if !(← get).attached then return ()
  match ← reconstructUnderLock paqus env compact [] with
  | .ok (.complete block) =>
    applyUnderLock paqus env "compact block rejected: " block
  | .ok (.missing indexes) =>
    if indexes.length > maxCompactRecoveryTransactions ∨
        saturatingMul indexes.length 4 > saturatingMul compact.shortIds.length 3 then
      fetchFullCompactFallback paqus env request blockHash
    else recoverCompactBlock paqus env request compact blockHash indexes
  | .error _ => fetchFullCompactFallback paqus env request blockHash

def fetchInventory (items : List InventoryItem) : LinkM F Unit := do
  let data ← request (.getData items)
  let followUp ← underLock env (failWith "unsolicited data response handling failed: " env.networkText)
    (blocksGiven paqus data) (handlePeerMessage paqus api data)
  match followUp with
  | some followUp => sendOnLink api env followUp
  | none => return ()

def handleUnsolicited (requestId : UInt64) : PeerMessage → LinkM F Unit
  | .compactBlock compact => handleCompactBlock paqus env request compact
  | message => do
    if !(← get).attached then return ()
    let response ← underLock env (failWith "unsolicited message handling failed: " env.networkText)
      (blocksGiven paqus message) (handlePeerMessage paqus api message)
    match response with
    | some (.getData items) => fetchInventory paqus api env request items
    | some response =>
      writeEnvelope env "unsolicited response send failed: " (.response api.params.networkMagic requestId response)
    | none => return ()

end Handlers

def PeerLink.received (link : PeerLink F) (rest : List Receipt) : PeerLink F := { link with channel := rest }

def PeerLink.parked (link : PeerLink F) (id : Nat) (message : PeerMessage) : PeerLink F :=
  { link with pendingResponses := link.pendingResponses.insert id message }

def PeerLink.gave (link : PeerLink F) (id : Nat) (message : PeerMessage) : PeerLink F :=
  { link with delivered := link.delivered ++ [(id, message)] }

def PeerLink.collected (link : PeerLink F) (id : Nat) (message : PeerMessage) : PeerLink F :=
  { link with
    pendingResponses := link.pendingResponses.erase id
    delivered := link.delivered ++ [(id, message)] }

def awaitResponse (handle : UInt64 → PeerMessage → LinkM F Unit) (id deadline : Nat) : Nat → LinkM F PeerMessage
  | 0 => throw .fuel
  | fuel + 1 => do
    match (← get).pendingResponses[id]? with
    | some message =>
      modify (·.collected id message)
      return message
    | none =>
      ensureRunning env
      let time ← moment
      ensure (.failed "peer request timed out") (env.now time < deadline)
      match (← get).channel with
      | [] => throw (.failed "read failed: channel is empty and sending half is closed")
      | .timeout :: rest =>
        modify (·.received rest)
        awaitResponse handle id deadline fuel
      | .envelope envelope :: rest =>
        if envelope.responseTo.toNat = id then
          modify fun link => (link.received rest).gave id envelope.message
          return envelope.message
        else if envelope.responseTo ≠ 0 then
          modify fun link => (link.received rest).parked envelope.responseTo.toNat envelope.message
          awaitResponse handle id deadline fuel
        else
          modify (·.received rest)
          handle envelope.requestId envelope.message
          awaitResponse handle id deadline fuel

/-- The first part of `request`: the id and the deadline of a call whose request has been sent. -/
def openRequest (message : PeerMessage) : LinkM F (Nat × Nat) := do
  ensureRunning env
  linkBudget env
  let deadline := env.now (← moment) + persistentPeerTimeout
  let link ← get
  modify fun link => { link with requestIds := link.requestIds + 1 }
  writeEnvelope env "send failed: " ⟨api.params.networkMagic, .ofNat link.requestIds, 0, message⟩
  return (link.requestIds, deadline)

/-- `request` with a bound on the depth of the calls that it makes while it waits. -/
def requestWithin : Nat → PeerMessage → LinkM F PeerMessage
  | 0, _ => throw .fuel
  | depth + 1, message => do
    let (id, deadline) ← openRequest api env message
    awaitResponse env (handleUnsolicited paqus api env (requestWithin depth)) id deadline ((← get).channel.length + 1)

/-- A call is made only after an envelope was taken from the channel, so that its length bounds the depth. -/
def requestOnLink (message : PeerMessage) : LinkM F PeerMessage := fun link =>
  requestWithin paqus api env (link.channel.length + 1) message link

def LinkError.text : LinkError → String
  | .failed text => text
  | .fuel => "calls are nested too deep"

def textual {α : Type} (program : LinkM F α) : EStateM String (PeerLink F) α :=
  focus id (fun link _ => link) LinkError.text program

def askOnLink (message : PeerMessage) : EStateM String (PeerLink F) PeerMessage :=
  textual (requestOnLink paqus api env message)

end Operations

end PaqusNetwork
