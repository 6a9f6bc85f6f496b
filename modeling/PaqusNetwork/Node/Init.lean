import PaqusNetwork.Node.Apply

namespace PaqusNetwork

open Effect Numeric

variable {F : Type} (paqus : Paqus F)

def orphanIsTooFarAhead (ledger : Ledger) (block : Block) : Bool :=
  block.height > saturatingAdd (ledger.tipHeight.getD 0) maxOrphanHeightDistance

/-- The index without the hash and without the parents that have no child left. -/
def removeOrphanIndex (hash : BlockHash) (index : BTreeMap BlockHash (List BlockHash)) :
    BTreeMap BlockHash (List BlockHash) :=
  index.filterMap fun _ children =>
    let kept := children.filter (· != hash)
    if kept.isEmpty then none else some kept

def removeOrphan (node : Node F) (hash : BlockHash) : Node F :=
  { node with
    orphanChildrenByParent := removeOrphanIndex hash node.orphanChildrenByParent
    orphanBlocks := node.orphanBlocks.erase hash }

def orphanExpired (ledger : Ledger) (now : Nat) (orphan : OrphanBlock) : Bool :=
  now - orphan.receivedAt > orphanBlockTtlSecs || orphanIsTooFarAhead ledger orphan.block

def expiredOrphans (node : Node F) (now : Nat) : List BlockHash :=
  node.orphanBlocks.toList.filterMap fun entry =>
    if orphanExpired node.ledger now entry.2 then some entry.1 else none

def pruneExpiredOrphans (now : Nat) : NodeM F Unit :=
  modify fun node => (expiredOrphans node now).foldl removeOrphan node

def queueMissingParentRequestAt (hash : BlockHash) (retryAt : Nat) : NodeM F Unit :=
  modify fun node =>
    if paqus.contains node.forkChoice hash then node
    else
      let earliest := match node.missingParentRetryAt[hash]? with
        | some existing => min existing retryAt
        | none => retryAt
      { node with
        missingParentRetryAt := node.missingParentRetryAt.insert hash earliest
        missingParentRequestSet := node.missingParentRequestSet.insert hash ()
        missingParentRequests :=
          if node.missingParentRequestSet.contains hash then node.missingParentRequests
          else node.missingParentRequests ++ [hash] }

def queueMissingParentRequest (hash : BlockHash) : NodeM F Unit := do
  if paqus.contains (← get).forkChoice hash then
    return ()
  let now ← currentUnixTimestamp
  queueMissingParentRequestAt paqus hash now

def retryMissingParentRequest (hash : BlockHash) : NodeM F Unit := do
  let now ← currentUnixTimestamp
  queueMissingParentRequestAt paqus hash (saturatingAdd now missingParentRetrySecs)

/-- The requests that are due, and the state without them; a request that is not due stays
in its place. -/
def drainMissingParentRequestsAt (now : Nat) : NodeM F (List BlockHash) := do
  let node ← get
  let due := fun hash => decide ((node.missingParentRetryAt[hash]?).getD 0 ≤ now)
  let ready := node.missingParentRequests.filter due
  modify fun node => { node with
    missingParentRequests := node.missingParentRequests.filter fun hash => !due hash
    missingParentRequestSet := ready.foldl (·.erase ·) node.missingParentRequestSet
    missingParentRetryAt := ready.foldl (·.erase ·) node.missingParentRetryAt }
  return ready

def drainMissingParentRequests : NodeM F (List BlockHash) := do
  let now ← currentUnixTimestamp
  drainMissingParentRequestsAt now

/-- Make room for one orphan: a full pool drops the orphan with the lowest hash. -/
def evictOrphan : NodeM F Unit :=
  modify fun node =>
    if node.orphanBlocks.size ≥ maxOrphanBlocks then
      match node.orphanBlocks.minKey? with
      | some evictedHash => removeOrphan node evictedHash
      | none => node
    else node

def cacheOrphanBlock (block : Block) : NodeM F Unit := do
  let now ← currentUnixTimestamp
  pruneExpiredOrphans now
  if block.height = 0 then
    return ()
  if orphanIsTooFarAhead (← get).ledger block then
    return ()
  let hash ← liftExcept .codec (paqus.blockHash block)
  let node ← get
  if paqus.contains node.forkChoice hash || node.orphanBlocks.contains hash then
    return ()
  evictOrphan
  queueMissingParentRequest paqus block.previousHash
  modify fun node => { node with
    orphanChildrenByParent := node.orphanChildrenByParent.insert block.previousHash
      ((node.orphanChildrenByParent[block.previousHash]?).getD [] ++ [hash])
    orphanBlocks := node.orphanBlocks.insert hash ⟨block, now⟩ }

/-- Offer each cached child of a connected parent; a child that connects goes on the stack. -/
def connectChildren : List BlockHash → List BlockHash → NodeM F (List BlockHash)
  | [], parents => return parents
  | childHash :: rest, parents => do
    match (← get).orphanBlocks[childHash]? with
    | none => connectChildren rest parents
    | some orphan =>
      modify fun node => { node with orphanBlocks := node.orphanBlocks.erase childHash }
      match ← attempt (applyKnownParentBlock paqus orphan.block) with
      | .ok _ => connectChildren rest (childHash :: parents)
      | .error (.forkChoice .missingParent) => do
        cacheOrphanBlock paqus orphan.block
        connectChildren rest parents
      | .error _ => connectChildren rest parents

/-- The loop over the stack. A child is pushed only when its orphan leaves the pool, so the number of orphans
plus the length of the stack bounds the turns. -/
def processParents : Nat → List BlockHash → NodeM F Unit
  | 0, _ => return ()
  | _ + 1, [] => return ()
  | turns + 1, parent :: parents => do
    match (← get).orphanChildrenByParent[parent]? with
    | none => processParents turns parents
    | some children =>
      modify fun node => { node with
        orphanChildrenByParent := node.orphanChildrenByParent.erase parent }
      let parents ← connectChildren paqus children parents
      processParents turns parents

def processOrphansForParent (parentHash : BlockHash) : NodeM F Unit := do
  let now ← currentUnixTimestamp
  pruneExpiredOrphans now
  processParents paqus ((← get).orphanBlocks.size + 1) [parentHash]

/-- What `apply_block` does with the outcome of `apply_known_parent_block`. -/
def finishBlock (block : Block) : Except NodeError Unit → NodeM F Unit
  | .ok _ => do
    let hash ← liftExcept .codec (paqus.blockHash block)
    processOrphansForParent paqus hash
  | .error (.forkChoice .missingParent) => cacheOrphanBlock paqus block
  | .error (.forkChoice .duplicateBlock) => return ()
  | .error (.ledger .duplicateBlock) => return ()
  | .error error => do
    modify fun node => { node with
      blockValidationFailuresTotal := saturatingAdd node.blockValidationFailuresTotal 1 }
    throw error

def applyBlock (block : Block) : NodeM F Unit := do
  let now ← currentUnixTimestamp
  pruneExpiredOrphans now
  let result ← attempt (applyKnownParentBlock paqus block)
  finishBlock paqus block result

/-- Index the chain of a ledger: the block where the ledger has it, else the header. -/
def indexChain (blocks : BTreeMap Nat Block) : List (Nat × BlockHeader) → F → Except ForkChoiceError F
  | [], forkChoice => .ok forkChoice
  | (height, header) :: rest, forkChoice =>
    let inserted := match blocks[height]? with
      | some block => paqus.fork.insertBlock forkChoice block
      | none => paqus.fork.insertHeader forkChoice header
    match inserted with
    | .error error => .error error
    | .ok (_, next) => indexChain blocks rest next

def tryWithGenesisAccounts (ledger : Ledger) (storage : Storage) (consensus : Consensus)
    (genesisAccounts : BTreeMap Address Account) (clock : Nat → Nat) : Except NodeError (Node F) := do
  let cache ← (CoreCache.fromLedger paqus ledger).mapError .codec
  let forkChoice ← (indexChain paqus ledger.chain.blocks ledger.chain.headers.toList
    paqus.fork.new).mapError .forkChoice
  return {
    ledger, mempool := Mempool.new, storage, consensus, cache, forkChoice, genesisAccounts
    orphanBlocks := ∅, orphanChildrenByParent := ∅, missingParentRequests := []
    missingParentRequestSet := ∅, missingParentRetryAt := ∅, pendingCompactBlocks := ∅
    snapshotCache := none, blockValidationFailuresTotal := 0, reorgsTotal := 0
    clock, clockReads := 0, connections := [] }

/-- One pass: the graph with the blocks that have a parent in it, the blocks without one, and whether any
block was taken off the list. -/
def indexPass : List Block → F → Except NodeError (F × List Block × Bool)
  | [], forkChoice => .ok (forkChoice, [], false)
  | block :: rest, forkChoice => do
    let hash ← (paqus.blockHash block).mapError .codec
    if paqus.contains forkChoice hash then
      let passed ← indexPass rest forkChoice
      return (passed.1, passed.2.1, true)
    match paqus.fork.insertBlock forkChoice block with
    | .ok inserted =>
      let passed ← indexPass rest inserted.2
      return (passed.1, passed.2.1, true)
    | .error .missingParent =>
      let passed ← indexPass rest forkChoice
      return (passed.1, block :: passed.2.1, passed.2.2)
    | .error error => throw (.forkChoice error)

/-- Passes until one makes no progress; a pass with progress shortens the list. -/
def indexPasses : Nat → List Block → F → Except NodeError F
  | 0, _, forkChoice => .ok forkChoice
  | passes + 1, blocks, forkChoice => do
    let passed ← indexPass paqus blocks forkChoice
    if passed.2.2 then indexPasses passes passed.2.1 passed.1 else return passed.1

def indexStoredBlocks : NodeM F Unit := do
  let blocks ← onStorage Storage.loadBlocksByHash
  let sorted := blocks.insertionSort fun left right => left.height ≤ right.height
  let forkChoice ← liftExcept id (indexPasses paqus (sorted.length + 1) sorted (← get).forkChoice)
  modify fun node => { node with forkChoice }
  discard (pruneFinalizedForks paqus)

def initGenesisAccounts (ledger : Ledger) :
    EStateM NodeError Storage (BTreeMap Address Account) := do
  match ← focus id (fun storage _ => storage) .storage Storage.loadGenesisAccounts with
  | some accounts => return accounts
  | none =>
    let accounts ←
      match ledger.tipHeight with
      | none => pure ∅
      | some 0 => pure ledger.accounts
      | some (_ + 1) => do
        let some genesis ← focus id (fun storage _ => storage) .storage (Storage.loadBlockByHeight 0)
          | throw .missingGenesisState
        let genesisLedger ← liftExcept .ledger (paqus.ledger.applyBlock paqus.ledger.new genesis)
        pure genesisLedger.accounts
    focus id (fun storage _ => storage) .storage (Storage.saveGenesisAccounts accounts)
    return accounts

/-- The part of `init_or_load` that works on the database, when it holds no tip. -/
def initStored : EStateM NodeError Storage (Ledger × BTreeMap Address Account) := do
  discard (focus id (fun storage _ => storage) .storage Storage.loadTip)
  let ledger ← liftExcept .genesis paqus.ledger.genesisLedger
  focus id (fun storage _ => storage) .storage (Storage.saveLedger paqus ledger)
  liftExcept id (ensureExpectedGenesis paqus ledger)
  let genesisAccounts ← initGenesisAccounts paqus ledger
  return (ledger, genesisAccounts)

/-- `init_or_load` on a database whose tip is absent, so that no ledger is loaded. -/
def initFresh (database : Storage) (consensus : Consensus) (clock : Nat → Nat) : Except NodeError (Node F) :=
  match initStored paqus database with
  | .error error _ => .error error
  | .ok stored storage =>
    match tryWithGenesisAccounts paqus stored.1 storage consensus stored.2 clock with
    | .error error => .error error
    | .ok node =>
      match indexStoredBlocks paqus node with
      | .error error _ => .error error
      | .ok _ node => .ok node

end PaqusNetwork
