import PaqusNetwork.ByteTable
import PaqusNetwork.Storage.Steps

namespace PaqusNetwork

open Effect Numeric Std

structure TransactionLocation where
  blockHeight : Nat
  blockHash : BlockHash
  txIndex : Nat
  family : TransactionFamily
  deriving DecidableEq, Repr

structure AddressTransactionLocation where
  txHash : TransactionHash
  blockHeight : Nat
  blockHash : BlockHash
  txIndex : Nat
  sent : Bool
  family : TransactionFamily
  deriving DecidableEq, Repr

structure MinerBlockLocation where
  blockHeight : Nat
  blockHash : BlockHash
  deriving DecidableEq, Repr

/-- What the protocol crate says about events, and the length of an address. -/
structure EventApi where
  addressSize : Nat
  validate : ProtocolEvent → Bool
  id : ProtocolEvent → Except CodecError Hash

/-- The index tables; a key is the bytes that the source writes, a value is the decoded one. -/
structure Indexes where
  txIndex : ExtTreeMap (List UInt8) TransactionLocation
  wtxIndex : ExtTreeMap (List UInt8) TransactionLocation
  addressTxIndex : ExtTreeMap (List UInt8) AddressTransactionLocation
  minerBlockIndex : ExtTreeMap (List UInt8) MinerBlockLocation
  eventsById : ExtTreeMap (List UInt8) ProtocolEvent
  blockEventIndex : ExtTreeMap (List UInt8) Hash
  transactionEventIndex : ExtTreeMap (List UInt8) Hash
  addressEventIndex : ExtTreeMap (List UInt8) Hash

def Indexes.empty : Indexes := ⟨∅, ∅, ∅, ∅, ∅, ∅, ∅, ∅⟩

def transactionRecipients : SignedProtocolTransaction → List Address
  | .batchTransfer transfer => transfer.outputs.filterMap (·.toTarget.address?)
  | .qcash qcash =>
    match qcash.kind with
    | .redeem recipient _ => [recipient]
    | .recoverRedeem claimant _ => [claimant]
    | _ => []

def transactionAddresses (transaction : SignedProtocolTransaction) : List (Address × Bool) :=
  (transaction.signer, true) ::
    ((transactionRecipients transaction).filter (· != transaction.signer)).map fun recipient => (recipient, false)

/-- The addresses of an event as the ordered set the source collects. -/
def eventAddresses (kind : ProtocolEventKind) : List Address :=
  let addresses := match kind with
    | .batchTransfer sender recipient _ => [sender, recipient]
    | .qcashWithdrawn signer _ => [signer]
    | .qcashRedeemed signer recipient _ => [signer, recipient]
    | .qcashRecoverRedeemed signer claimant _ => [signer, claimant]
    | .genesisAllocation recipient _ => [recipient]
    | .coinbasePaid miner _ => [miner]
  (addresses.foldl (fun set address => set.insert address ()) (∅ : BTreeMap Address Unit)).keys

variable {F : Type} (paqus : Paqus F) (events : EventApi)

def heightKey (height : Nat) : List UInt8 := bigEndian 8 height

def hashKey (hash : Hash) : List UInt8 := bigEndian paqus.codec.hashSize hash

def addressKey (address : Address) : List UInt8 := bigEndian events.addressSize address

def addressTxKey (address : Address) (height txIndex : Nat) (sent : Bool) : List UInt8 :=
  addressKey events address ++ (heightKey height ++ (bigEndian 4 txIndex ++ [if sent then 1 else 0]))

def blockEventKey (blockHash : BlockHash) (eventIndex : Nat) : List UInt8 :=
  hashKey paqus blockHash ++ bigEndian 4 eventIndex

def transactionEventKey (transactionHash : TransactionHash) (eventIndex : Nat) : List UInt8 :=
  hashKey paqus transactionHash ++ bigEndian 4 eventIndex

def addressEventKey (address : Address) (height eventIndex : Nat) : List UInt8 :=
  addressKey events address ++ (heightKey height ++ bigEndian 4 eventIndex)

def minerBlockKey (address : Address) (height : Nat) : List UInt8 := addressKey events address ++ heightKey height

namespace Indexes

def indexMinerBlock (block : Block) (indexes : Indexes) : Except StorageError Indexes :=
  if block.body.coinbase.isNone then .ok indexes
  else do
    let blockHash ← (paqus.blockHash block).mapError .codec
    return { indexes with
      minerBlockIndex := indexes.minerBlockIndex.insert
        (minerBlockKey events (paqus.rules.minerAddress block) block.height) ⟨block.height, blockHash⟩ }

def indexTransaction (block : Block) (blockHash : BlockHash) (index : Nat)
    (transaction : SignedProtocolTransaction) (txHash : TransactionHash) (indexes : Indexes) : Indexes :=
  let location : TransactionLocation := ⟨block.height, blockHash, index, transaction.family⟩
  { indexes with
    txIndex := indexes.txIndex.insert (hashKey paqus txHash) location
    wtxIndex := indexes.wtxIndex.insert (hashKey paqus txHash) location
    addressTxIndex := (transactionAddresses transaction).foldl (fun table role =>
      table.insert (addressTxKey events role.1 block.height index role.2)
        ⟨txHash, block.height, blockHash, index, role.2, transaction.family⟩) indexes.addressTxIndex }

def indexTransactions (block : Block) (blockHash : BlockHash) :
    Nat → List SignedProtocolTransaction → Indexes → Except StorageError Indexes
  | _, [], indexes => .ok indexes
  | index, transaction :: rest, indexes => do
    check (.integrity "transaction index exceeds u32") (index ≤ u32Max)
    let txHash ← (paqus.codec.transactionHash transaction).mapError .codec
    indexTransactions block blockHash (index + 1) rest
      (indexTransaction paqus events block blockHash index transaction txHash indexes)

def indexBlockTransactions (block : Block) (indexes : Indexes) : Except StorageError Indexes := do
  let blockHash ← (paqus.blockHash block).mapError .codec
  indexTransactions paqus events block blockHash 0 block.transactions indexes

def indexEvent (event : ProtocolEvent) (id : Hash) (indexes : Indexes) : Indexes :=
  { indexes with
    eventsById := indexes.eventsById.insert (hashKey paqus id) event
    blockEventIndex := indexes.blockEventIndex.insert
      (blockEventKey paqus event.blockHash event.eventIndex) id
    transactionEventIndex := match event.transactionHash with
      | some transactionHash => indexes.transactionEventIndex.insert
          (transactionEventKey paqus transactionHash event.eventIndex) id
      | none => indexes.transactionEventIndex
    addressEventIndex := (eventAddresses event.kind).foldl (fun table address =>
      table.insert (addressEventKey events address event.blockHeight event.eventIndex) id)
      indexes.addressEventIndex }

def indexProtocolEvents : List ProtocolEvent → Indexes → Except StorageError Indexes
  | [], indexes => .ok indexes
  | event :: rest, indexes => do
    check (.integrity "invalid protocol event") (events.validate event)
    let id ← (events.id event).mapError .codec
    indexProtocolEvents rest (indexEvent paqus events event id indexes)

/-- The order of `sort_by_key(|location| (block_height, tx_index, sent))`; `false` comes first. -/
def addressLocationLe (left right : AddressTransactionLocation) : Prop :=
  left.blockHeight < right.blockHeight ∨ (left.blockHeight = right.blockHeight ∧
    (left.txIndex < right.txIndex ∨ (left.txIndex = right.txIndex ∧ (left.sent → right.sent))))

instance : DecidableRel addressLocationLe := fun left right => by
  unfold addressLocationLe
  exact inferInstance

/-- The order of `sort_by_key(|event| (block_height, event_index))`. -/
def eventLe (left right : ProtocolEvent) : Prop :=
  left.blockHeight < right.blockHeight ∨ (left.blockHeight = right.blockHeight ∧ left.eventIndex ≤ right.eventIndex)

instance : DecidableRel eventLe := fun left right => by
  unfold eventLe
  exact inferInstance

def loadTransactionLocation (indexes : Indexes) (hash : TransactionHash) : Option TransactionLocation :=
  indexes.txIndex[hashKey paqus hash]?

def loadAddressTransactionLocations (indexes : Indexes) (address : Address) : List AddressTransactionLocation :=
  (ByteTable.scan (addressKey events address) indexes.addressTxIndex.toList).insertionSort addressLocationLe

def loadMinerBlockLocations (indexes : Indexes) (address : Address) : List MinerBlockLocation :=
  (ByteTable.scan (addressKey events address) indexes.minerBlockIndex.toList).insertionSort
    fun left right => left.blockHeight ≤ right.blockHeight

def indexedEvent (indexes : Indexes) (id : Hash) : Except StorageError ProtocolEvent :=
  match indexes.eventsById[hashKey paqus id]? with
  | none => .error (.integrity "indexed protocol event is missing")
  | some event =>
    if !events.validate event then .error (.integrity "indexed protocol event is invalid")
    else do
      let found ← (events.id event).mapError .codec
      check (.integrity "indexed protocol event is invalid") (found == id)
      return event

def loadIndexedEvents (indexes : Indexes) (table : ExtTreeMap (List UInt8) Hash) (start : List UInt8) :
    Except StorageError (List ProtocolEvent) := do
  let found ← (ByteTable.scan start table.toList).mapM (indexedEvent paqus events indexes)
  return found.insertionSort eventLe

def loadBlockEvents (indexes : Indexes) (blockHash : BlockHash) : Except StorageError (List ProtocolEvent) :=
  loadIndexedEvents paqus events indexes indexes.blockEventIndex (hashKey paqus blockHash)

def loadTransactionEvents (indexes : Indexes) (transactionHash : TransactionHash) :
    Except StorageError (List ProtocolEvent) :=
  loadIndexedEvents paqus events indexes indexes.transactionEventIndex (hashKey paqus transactionHash)

def loadAddressEvents (indexes : Indexes) (address : Address) : Except StorageError (List ProtocolEvent) :=
  loadIndexedEvents paqus events indexes indexes.addressEventIndex (addressKey events address)

end Indexes

variable {block : Block} {ledger : Ledger} {hash : BlockHash}

/-- `version` is the entry of the meta table that `open` writes. -/
structure Database where
  storage : Storage
  indexes : Indexes
  version : Option Nat

abbrev DatabaseM := EStateM StorageError Database

def onTables {α : Type} (program : StorageM α) : DatabaseM α :=
  focus Database.storage (fun storage database => { database with storage }) id program

def Ledger.eventsForBlock (ledger : Ledger) (hash : BlockHash) : List ProtocolEvent :=
  (ledger.eventsByBlock[hash]?).getD []

namespace Indexes

def indexBlock (ledger : Ledger) (block : Block) (hash : BlockHash) (indexes : Indexes) :
    Except StorageError Indexes := do
  let indexes ← indexes.indexBlockTransactions paqus events block
  let indexes ← indexes.indexMinerBlock paqus events block
  indexes.indexProtocolEvents paqus events (ledger.eventsForBlock hash)

end Indexes

namespace Database

def storeChain (ledger : Ledger) : List Block → Database → Except StorageError Database
  | [], database => .ok database
  | block :: rest, database => do
    let hash ← Storage.storedHash paqus block
    let indexes ← database.indexes.indexBlock paqus events ledger block hash
    let storage := { database.storage with
      blocksByHeight := database.storage.blocksByHeight.insert block.height block
      blocksByHash := database.storage.blocksByHash.insert hash block }
    storeChain ledger rest { database with storage, indexes }

def saveLedger (ledger : Ledger) : DatabaseM Unit := do
  let genesisAccounts ← liftExcept id (Storage.storedGenesisAccounts paqus ledger)
  onTables Storage.databaseCall
  let database ← get
  let cleared := { database.storage with blocksByHeight := ∅ }
  let stored ← liftExcept id (storeChain paqus events ledger ledger.storedBlocks
    { database with storage := cleared, indexes := .empty })
  set { stored with storage := Storage.withLedger ledger genesisAccounts stored.storage }
  onTables Storage.databaseCall

def saveSideBlock (block : Block) : DatabaseM Unit := onTables (Storage.saveSideBlock paqus block)

structure LookupTexts where
  missing : String
  hashMismatch : String
  positionMissing : String
  mismatch : String

def locatedTransaction (texts : LookupTexts) (hash : TransactionHash) :
    Option TransactionLocation → DatabaseM (Option (TransactionLocation × SignedProtocolTransaction))
  | none => return none
  | some location => do
    let some block ← onTables (Storage.loadBlockByHeight location.blockHeight)
      | throw (.integrity texts.missing)
    let blockHash ← liftExcept .codec (paqus.blockHash block)
    ensure (.integrity texts.hashMismatch) (blockHash == location.blockHash)
    let some transaction := block.transactions[location.txIndex]?
      | throw (.integrity texts.positionMissing)
    let found ← liftExcept .codec (paqus.codec.transactionHash transaction)
    ensure (.integrity texts.mismatch) (found == hash && transaction.family == location.family)
    return some (location, transaction)

def loadProtocolTransaction (hash : TransactionHash) :
    DatabaseM (Option (TransactionLocation × SignedProtocolTransaction)) := do
  onTables Storage.databaseCall
  locatedTransaction paqus ⟨"indexed transaction block is missing",
    "indexed transaction block hash mismatch", "indexed transaction position is missing",
    "indexed transaction does not match its location"⟩ hash
    ((← get).indexes.loadTransactionLocation paqus hash)

def loadAddressTransactionLocations (address : Address) : DatabaseM (List AddressTransactionLocation) := do
  onTables Storage.databaseCall
  return (← get).indexes.loadAddressTransactionLocations events address

def loadMinerBlockLocations (address : Address) : DatabaseM (List MinerBlockLocation) := do
  onTables Storage.databaseCall
  return (← get).indexes.loadMinerBlockLocations events address

def loadBlockEvents (blockHash : BlockHash) : DatabaseM (List ProtocolEvent) := do
  onTables Storage.databaseCall
  liftExcept id ((← get).indexes.loadBlockEvents paqus events blockHash)

def loadTransactionEvents (transactionHash : TransactionHash) : DatabaseM (List ProtocolEvent) := do
  onTables Storage.databaseCall
  liftExcept id ((← get).indexes.loadTransactionEvents paqus events transactionHash)

def loadAddressEvents (address : Address) : DatabaseM (List ProtocolEvent) := do
  onTables Storage.databaseCall
  liftExcept id ((← get).indexes.loadAddressEvents paqus events address)

end Database

variable {paqus events}

def Indexes.indexChain (paqus : Paqus F) (events : EventApi) (ledger : Ledger) :
    List Block → Indexes → Except StorageError Indexes
  | [], indexes => .ok indexes
  | block :: rest, indexes => do
    let hash ← (paqus.blockHash block).mapError .codec
    let indexes ← indexes.indexBlock paqus events ledger block hash
    indexChain paqus events ledger rest indexes

def Ledger.indexes (paqus : Paqus F) (events : EventApi) (ledger : Ledger) : Except StorageError Indexes :=
  Indexes.indexChain paqus events ledger ledger.storedBlocks .empty

theorem Ledger.mem_storedBlocks :
    block ∈ ledger.storedBlocks ↔ ∃ height : Nat, ledger.chain.blocks[height]? = some block := by
  unfold storedBlocks
  rw [List.mem_map]
  constructor
  · rintro ⟨⟨height, other⟩, hmem, rfl⟩
    exact ⟨height, ExtTreeMap.mem_toList_iff_getElem?_eq_some.mp hmem⟩
  · rintro ⟨height, hfound⟩
    exact ⟨(height, block), ExtTreeMap.mem_toList_iff_getElem?_eq_some.mpr hfound, rfl⟩

theorem storedHash_structure (h : Storage.storedHash paqus block = .ok hash) :
    paqus.rules.validateStructure block = true := by
  simp only [Storage.storedHash, Storage.validateBlockForStorage, except_bind_eq_ok] at h
  obtain ⟨_, hvalid, _⟩ := h
  split at hvalid
  next hstructure => exact hstructure
  next => cases hvalid

theorem storedHash_eq_ok (h : Storage.storedHash paqus block = .ok hash) : paqus.blockHash block = .ok hash := by
  simp only [Storage.storedHash, except_bind_eq_ok, mapError_eq_ok] at h
  obtain ⟨_, _, _, _, hhash⟩ := h
  exact hhash

theorem Indexes.indexTransactions_count {blockHash : BlockHash} {index : Nat}
    {transactions : List SignedProtocolTransaction} {indexes next : Indexes}
    (h : indexTransactions paqus events block blockHash index transactions indexes = .ok next)
    (hindex : index ≤ u32Max + 1) : index + transactions.length ≤ u32Max + 1 := by
  induction transactions generalizing index indexes with
  | nil => simpa using hindex
  | cons transaction rest ih =>
    simp only [indexTransactions, except_bind_eq_ok, check_eq_ok, decide_eq_true_eq] at h
    obtain ⟨_, hle, _, _, hrest⟩ := h
    have hcount := ih hrest (by omega)
    rw [List.length_cons]
    omega

theorem Indexes.indexBlock_count {indexes next : Indexes}
    (h : indexBlock paqus events ledger block hash indexes = .ok next) :
    block.transactions.length ≤ u32Max + 1 := by
  simp only [indexBlock, indexBlockTransactions, except_bind_eq_ok] at h
  obtain ⟨_, ⟨_, _, htransactions⟩, _⟩ := h
  simpa using indexTransactions_count htransactions (Nat.zero_le _)

namespace Database

theorem storeChain_eq_ok {blocks : List Block} {database stored : Database}
    (h : storeChain paqus events ledger blocks database = .ok stored) :
    Storage.storeBlocks paqus blocks database.storage = .ok stored.storage ∧
      Indexes.indexChain paqus events ledger blocks database.indexes = .ok stored.indexes ∧
      stored.version = database.version := by
  induction blocks generalizing database with
  | nil =>
    cases h
    exact ⟨rfl, rfl, rfl⟩
  | cons block rest ih =>
    simp only [storeChain, except_bind_eq_ok] at h
    obtain ⟨hash, hhash, indexes, hindexes, hrest⟩ := h
    obtain ⟨hstorage, hchain, hversion⟩ := ih hrest
    have hcount := Indexes.indexBlock_count hindexes
    refine ⟨?_, ?_, hversion⟩
    · simp only [Storage.storeBlocks, except_bind_eq_ok, check_eq_ok, decide_eq_true_eq]
      exact ⟨hash, hhash, (), hcount, hstorage⟩
    · simp only [Indexes.indexChain, except_bind_eq_ok, mapError_eq_ok]
      exact ⟨hash, storedHash_eq_ok hhash, indexes, hindexes, hchain⟩

/-- `save_ledger` does to the other tables what the node's model of it does, and leaves the index tables of
the ledger. -/
theorem saveLedger_eq_ok {database next : Database} {u : Unit}
    (h : saveLedger paqus events ledger database = .ok u next) :
    Storage.saveLedger paqus ledger database.storage = .ok u next.storage ∧
      ledger.indexes paqus events = .ok next.indexes ∧ next.version = database.version := by
  obtain ⟨accounts, haccounts, hcalling⟩ := liftExcept_bind_eq_ok.mp h
  obtain ⟨_, called, hcall, hreading⟩ := bind_eq_ok.mp hcalling
  obtain ⟨storage, hcalled, rfl⟩ := focus_eq_ok.mp hcall
  rw [get_bind] at hreading
  obtain ⟨stored, hstored, hsetting⟩ := liftExcept_bind_eq_ok.mp hreading
  rw [bind_ok (set_apply _ _)] at hsetting
  obtain ⟨flushed, hflush, rfl⟩ := focus_eq_ok.mp hsetting
  obtain ⟨hblocks, hindexes, hversion⟩ := storeChain_eq_ok hstored
  refine ⟨?_, hindexes, hversion⟩
  unfold Storage.saveLedger
  rw [haccounts, liftExcept_ok, pure_bind, bind_ok hcalled, get_bind]
  have hlifted : (liftExcept id (Storage.storeBlocks paqus ledger.storedBlocks
      { storage with blocksByHeight := ∅ }) : StorageM Storage) storage = .ok stored.storage storage :=
    liftExcept_eq_ok.mpr ⟨hblocks, rfl⟩
  rw [bind_ok hlifted, bind_ok (set_apply _ _)]
  exact hflush

end Database

end PaqusNetwork
