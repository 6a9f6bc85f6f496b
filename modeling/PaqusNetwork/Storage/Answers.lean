import PaqusNetwork.Reference.Events

namespace PaqusNetwork

open Effect Numeric

variable {F : Type} {paqus : Paqus F} {storage next : Storage} {u : Unit} {ledger : Ledger}

/-- The tables of the ledger hold each value under its own key. -/
structure Ledger.Keyed (ledger : Ledger) : Prop where
  accounts : ∀ (address : Address) (account : Account), ledger.accounts[address]? = some account →
    account.address = address
  headers : ∀ (height : Nat) (header : BlockHeader), ledger.chain.headers[height]? = some header →
    header.height = height
  blocks : ∀ (height : Nat) (block : Block), ledger.chain.blocks[height]? = some block → block.height = height

namespace Storage

/-- The block table that the blocks of a ledger leave; blocks saved before stay in it. -/
def withBlocksByHash (paqus : Paqus F) (blocks : List Block) (table : BTreeMap BlockHash Block) :
    BTreeMap BlockHash Block :=
  blocks.foldl (fun table block => table.insert (paqus.blockDigest block) block) table

theorem storeBlocks_eq_ok {blocks : List Block} {stored : Storage} (h : storeBlocks paqus blocks storage = .ok stored) :
    (stored = { storage with
      blocksByHeight := blocks.foldl (fun table block => table.insert block.height block)
        storage.blocksByHeight
      blocksByHash := withBlocksByHash paqus blocks storage.blocksByHash }) ∧
      ∀ block ∈ blocks, storedHash paqus block = .ok (paqus.blockDigest block) := by
  induction blocks generalizing storage with
  | nil =>
    cases h
    exact ⟨rfl, by simp⟩
  | cons block rest ih =>
    simp only [storeBlocks, except_bind_eq_ok] at h
    obtain ⟨hash, hhash, _, _, hrest⟩ := h
    obtain ⟨hstored, hhashed⟩ := ih hrest
    have hdigest := Paqus.blockDigest_eq (storedHash_eq_ok hhash)
    refine ⟨by rw [hstored, ← hdigest]; rfl, fun other hother => ?_⟩
    rcases List.mem_cons.mp hother with rfl | hmem
    · rw [hdigest]
      exact hhash
    · exact hhashed other hmem

/-- The contents after `save_ledger`, in terms of the ledger and of what it does not clear. -/
structure Saved (paqus : Paqus F) (ledger : Ledger) (before after : Storage) : Prop where
  accounts : after.accounts = ledger.accounts
  headers : after.headersByHeight = ledger.chain.headers
  blocks : after.blocksByHeight = ledger.chain.blocks
  byHash : after.blocksByHash = withBlocksByHash paqus ledger.storedBlocks before.blocksByHash
  tip : ∀ height hash, ledger.tipHeight = some height → ledger.tipHash = some hash → after.tip = some (height, hash)
  checkpoint : after.checkpointHeight = ledger.chain.checkpointHeight
  protocolState : after.protocolState = some ⟨ledger.qcashUtxos, ledger.eventsByBlock⟩
  stored : ∀ block ∈ ledger.storedBlocks, storedHash paqus block = .ok (paqus.blockDigest block)
  genesisAccounts : ∃ accounts, storedGenesisAccounts paqus ledger = .ok accounts ∧
    after.genesisAccounts = accounts.or before.genesisAccounts
  issues : after.rollbackIssues = before.rollbackIssues
  contexts : after.rollbackProofContexts = before.rollbackProofContexts
  faults : after.faults = before.faults
  calls : after.calls = before.calls + 2

theorem saveLedger_fills (h : saveLedger paqus ledger storage = .ok u next) :
    ∃ accounts, storedGenesisAccounts paqus ledger = .ok accounts ∧
      (∀ block ∈ ledger.storedBlocks, storedHash paqus block = .ok (paqus.blockDigest block)) ∧
      next = withLedger ledger accounts { storage with
        blocksByHeight := ledger.storedBlocks.foldl (fun table block => table.insert block.height block) ∅
        blocksByHash := withBlocksByHash paqus ledger.storedBlocks storage.blocksByHash
        calls := storage.calls + 2 } := by
  obtain ⟨accounts, haccounts, hcalling⟩ := liftExcept_bind_eq_ok.mp h
  obtain ⟨_, called, hcall, hreading⟩ := bind_eq_ok.mp hcalling
  obtain ⟨_, rfl⟩ := databaseCall_ok hcall
  rw [get_bind] at hreading
  obtain ⟨stored, hblocks, hsetting⟩ := liftExcept_bind_eq_ok.mp hreading
  rw [bind_ok (set_apply _ _)] at hsetting
  obtain ⟨_, rfl⟩ := databaseCall_ok hsetting
  obtain ⟨rfl, hhashed⟩ := storeBlocks_eq_ok hblocks
  exact ⟨accounts, haccounts, hhashed, rfl⟩

theorem saveLedger_blocks
    (hkeyed : ∀ (height : Nat) (block : Block), ledger.chain.blocks[height]? = some block → block.height = height)
    (h : saveLedger paqus ledger storage = .ok u next) : next.blocksByHeight = ledger.chain.blocks := by
  obtain ⟨_, _, _, rfl⟩ := saveLedger_fills h
  exact ByteTable.writeAll_values hkeyed

theorem saveLedger_saved (hkeyed : ledger.Keyed)
    (h : saveLedger paqus ledger storage = .ok u next) : Saved paqus ledger storage next := by
  have hblocks := saveLedger_blocks hkeyed.blocks h
  obtain ⟨accounts, haccounts, hhashed, rfl⟩ := saveLedger_fills h
  exact {
    accounts := ByteTable.writeAll_values hkeyed.accounts
    headers := ByteTable.writeAll_values hkeyed.headers
    blocks := hblocks
    byHash := rfl
    tip := fun height hash hheight hhash => by simp only [withLedger, hheight, hhash]
    checkpoint := rfl
    protocolState := rfl
    stored := hhashed
    genesisAccounts := ⟨accounts, haccounts, by cases accounts <;> rfl⟩
    issues := rfl
    contexts := rfl
    faults := rfl
    calls := rfl }

end Storage

theorem Database.saveLedger_faults {events : EventApi} {database saved : Database}
    (h : Database.saveLedger paqus events ledger database = .ok u saved) :
    saved.storage.faults = database.storage.faults := by
  obtain ⟨_, _, _, hfilled⟩ := Storage.saveLedger_fills (Database.saveLedger_eq_ok h).1
  rw [hfilled]
  rfl

namespace Storage

/-- A state that reads of the database pass through. -/
structure Reading (storage current : Storage) : Prop where
  faultless : current.Faultless
  tables : ∃ calls, current = { storage with calls }

variable {storage : Storage}

theorem Reading.refl (h : storage.Faultless) : Reading storage storage := ⟨h, storage.calls, rfl⟩

theorem databaseCall_gives : Gives (Reading storage) databaseCall () := by
  rintro current ⟨hquiet, calls, rfl⟩
  exact ⟨_, databaseCall_eq hquiet, fun n hn => hquiet n (Nat.le_of_succ_le hn), _, rfl⟩

theorem read_gives {α : Type} {read : Storage → α} (h : ∀ calls, read { storage with calls } = read storage) :
    Gives (Reading storage) (do databaseCall; return read (← get)) (read storage) := by
  refine databaseCall_gives.bind (Gives.of_get ?_)
  rintro current ⟨_, calls, rfl⟩
  rw [h calls]
  exact Gives.pure

theorem loadTip_gives : Gives (Reading storage) loadTip storage.tip := read_gives fun _ => rfl

theorem loadBlockByHeight_gives {height : Nat}
    (h : ∀ block, storage.blocksByHeight[height]? = some block → block.height = height) :
    Gives (Reading storage) (loadBlockByHeight height) storage.blocksByHeight[height]? := by
  refine databaseCall_gives.bind (Gives.of_get ?_)
  rintro current ⟨_, calls, rfl⟩
  dsimp only
  cases hfound : storage.blocksByHeight[height]? with
  | none => exact Gives.pure
  | some block => exact (Gives.ensure (by simpa using h block hfound)).bind Gives.pure

end Storage

namespace Database

/-- A state that reads of the database pass through. -/
structure Reading (database current : Database) : Prop where
  storage : database.storage.Reading current.storage
  indexes : current.indexes = database.indexes
  version : current.version = database.version

variable {database : Database}

theorem Reading.refl (h : database.storage.Faultless) : Reading database database := ⟨.refl h, rfl, rfl⟩

theorem onTables_gives {α : Type} {program : StorageM α} {a : α}
    (h : Gives database.storage.Reading program a) : Gives (Reading database) (onTables program) a :=
  h.focus (fun _ hcurrent => hcurrent.storage) fun _ _ hcurrent hstorage =>
    ⟨hstorage, hcurrent.indexes, hcurrent.version⟩

theorem readIndexes_gives {α : Type} (program : Indexes → DatabaseM α) {a : α}
    (h : Gives (Reading database) (program database.indexes) a) :
    Gives (Reading database) (do onTables Storage.databaseCall; program (← get).indexes) a := by
  refine (onTables_gives Storage.databaseCall_gives).bind (Gives.of_get fun current hcurrent => ?_)
  rw [hcurrent.indexes]
  exact h

end Database

variable {F : Type} {paqus : Paqus F} {events : EventApi} {ledger : Ledger}

namespace Database

variable {database : Database}

/-- Every lookup succeeds and finds what the stored blocks of the ledger hold. -/
structure Answers (paqus : Paqus F) (events : EventApi) (ledger : Ledger) (database : Database) : Prop where
  transaction : ∀ hash < 256 ^ paqus.codec.hashSize,
    ∃ found, outcome (loadProtocolTransaction paqus hash database) = .ok found ∧
      ∀ location transaction, found = some (location, transaction) ↔
        ∃ block ∈ ledger.storedBlocks, ∃ index : Nat, block.transactions[index]? = some transaction ∧
          paqus.transactionDigest transaction = hash ∧ location = locationOf paqus block transaction index
  address : ∀ address < 256 ^ events.addressSize,
    outcome (loadAddressTransactionLocations events address database) = .ok (ledger.addressHistory paqus address)
  addressOrder : ∀ address, (ledger.addressHistory paqus address).Pairwise fun left right =>
    left.blockHeight < right.blockHeight ∨ (left.blockHeight = right.blockHeight ∧ left.txIndex < right.txIndex)
  miner : ∀ address < 256 ^ events.addressSize,
    outcome (loadMinerBlockLocations events address database) = .ok (ledger.minedBy paqus address)
  minerOrder : ∀ address, (ledger.minedBy paqus address).Pairwise fun left right =>
    left.blockHeight < right.blockHeight
  blockEvents : ∀ hash < 256 ^ paqus.codec.hashSize,
    outcome (loadBlockEvents paqus events hash database) =
      .ok (ledger.eventsWhere paqus fun event => event.blockHash == hash)
  transactionEvents : ∀ hash < 256 ^ paqus.codec.hashSize,
    outcome (loadTransactionEvents paqus events hash database) =
      .ok (ledger.eventsWhere paqus fun event => event.transactionHash == some hash)
  addressEvents : ∀ address < 256 ^ events.addressSize,
    outcome (loadAddressEvents paqus events address database) =
      .ok (ledger.eventsWhere paqus fun event => decide (address ∈ eventAddresses event.kind))

theorem loadBlockEvents_gives (h : ledger.Unambiguous paqus events) (hsized : ledger.Sized paqus events)
    (hindexes : ledger.indexes paqus events = .ok database.indexes) {hash : BlockHash}
    (hhash : hash < 256 ^ paqus.codec.hashSize) :
    Gives (Reading database) (loadBlockEvents paqus events hash)
      (ledger.eventsWhere paqus fun event => event.blockHash == hash) :=
  readIndexes_gives (fun indexes => liftExcept id (indexes.loadBlockEvents paqus events hash))
    (Gives.liftExcept (loadBlockEvents_eq h hsized hindexes hhash))

section Saved

variable (h : ledger.Unambiguous paqus events) (hindexes : ledger.indexes paqus events = .ok database.indexes)
  (hblocks : database.storage.blocksByHeight = ledger.chain.blocks)

include h hindexes hblocks

theorem locatedTransaction_gives (texts : LookupTexts) {block : Block} (hblock : block ∈ ledger.storedBlocks)
    {index : Nat} {transaction : SignedProtocolTransaction}
    (hat : block.transactions[index]? = some transaction) :
    Gives (Reading database)
      (locatedTransaction paqus texts (paqus.transactionDigest transaction)
        (some (locationOf paqus block transaction index)))
      (some (locationOf paqus block transaction index, transaction)) := by
  obtain ⟨_, hindexable⟩ := Ledger.indexes_eq hindexes
  have hindexed := hindexable block hblock
  have hfound : database.storage.blocksByHeight[block.height]? = some block := by
    rw [hblocks]
    exact h.at_height hblock
  have hload : Gives database.storage.Reading (Storage.loadBlockByHeight block.height) (some block) := by
    rw [← hfound]
    refine Storage.loadBlockByHeight_gives fun other hother => ?_
    rw [hfound] at hother
    rw [Option.some.inj hother]
  unfold locatedTransaction
  refine (onTables_gives hload).bind ((Gives.liftExcept hindexed.hashed).bind ?_)
  refine (Gives.ensure (beq_self_eq_true _)).bind ?_
  simp only [locationOf, hat]
  refine (Gives.liftExcept (hindexed.transactions transaction (List.mem_of_getElem? hat))).bind ?_
  exact (Gives.ensure (by simp)).bind Gives.pure

theorem loadProtocolTransaction_gives (hsized : ledger.Sized paqus events) {hash : TransactionHash}
    (hhash : hash < 256 ^ paqus.codec.hashSize) :
    ∃ found, Gives (Reading database) (loadProtocolTransaction paqus hash) found ∧
      ∀ location transaction, found = some (location, transaction) ↔
        ∃ block ∈ ledger.storedBlocks, ∃ index : Nat, block.transactions[index]? = some transaction ∧
          paqus.transactionDigest transaction = hash ∧
          location = locationOf paqus block transaction index := by
  have hlocated := fun {location} => @loadTransactionLocation_eq_some F paqus events ledger database.indexes
    h hsized hindexes hash hhash location
  have hread := fun {found} => @readIndexes_gives database _
    (fun indexes => locatedTransaction paqus ⟨"indexed transaction block is missing",
      "indexed transaction block hash mismatch", "indexed transaction position is missing",
      "indexed transaction does not match its location"⟩ hash (indexes.loadTransactionLocation paqus hash)) found
  cases hlookup : database.indexes.loadTransactionLocation paqus hash with
  | none =>
    refine ⟨none, hread ?_, fun location transaction => ⟨fun hnone => (by cases hnone), ?_⟩⟩
    · rw [hlookup]
      exact Gives.pure
    · rintro ⟨block, hblock, index, hat, hdigest, _⟩
      have hsome := hlocated.mpr ⟨block, hblock, index, transaction, hat, hdigest, rfl⟩
      rw [hlookup] at hsome
      cases hsome
  | some location =>
    obtain ⟨block, hblock, index, transaction, hat, rfl, rfl⟩ := hlocated.mp hlookup
    refine ⟨some (locationOf paqus block transaction index, transaction), hread ?_,
      fun location other => ⟨fun hfound => ?_, ?_⟩⟩
    · rw [hlookup]
      exact locatedTransaction_gives h hindexes hblocks _ hblock hat
    · cases hfound
      exact ⟨block, hblock, index, hat, rfl, rfl⟩
    · rintro ⟨block', hblock', index', hat', hdigest, rfl⟩
      obtain ⟨rfl, rfl⟩ := h.once block hblock block' hblock' index index' _ _ hat hat' hdigest.symm
      cases hat.symm.trans hat'
      rfl

end Saved

/-- After `save_ledger` on a database with any content, the lookups find exactly what the stored blocks of
the ledger hold, in order. -/
theorem saveLedger_answers {saved : Database} {u : Unit}
    (hsave : saveLedger paqus events ledger database = .ok u saved) (hquiet : saved.storage.Faultless)
    (hsized : ledger.Sized paqus events) (h : ledger.Unambiguous paqus events) :
    saved.Answers paqus events ledger := by
  obtain ⟨htables, hindexes, _⟩ := saveLedger_eq_ok hsave
  have hblocks := Storage.saveLedger_blocks h.keyed htables
  have hreading := Reading.refl hquiet
  refine ⟨fun hash hhash => ?_, fun address haddress => ?_, fun address => ?_, fun address haddress => ?_,
    fun address => ?_, fun hash hhash => ?_, fun hash hhash => ?_, fun address haddress => ?_⟩
  · obtain ⟨found, hgives, hfound⟩ := loadProtocolTransaction_gives h hindexes hblocks hsized hhash
    exact ⟨found, hgives.outcome hreading, hfound⟩
  · rw [← loadAddressTransactionLocations_eq h hsized hindexes haddress]
    exact (readIndexes_gives (fun indexes => pure (indexes.loadAddressTransactionLocations events address))
      Gives.pure).outcome hreading
  · exact h.history_order address
  · rw [← loadMinerBlockLocations_eq h hsized hindexes haddress]
    exact (readIndexes_gives (fun indexes => pure (indexes.loadMinerBlockLocations events address))
      Gives.pure).outcome hreading
  · exact h.mined_order address
  · exact (loadBlockEvents_gives h hsized hindexes hhash).outcome hreading
  · exact (readIndexes_gives (fun indexes => liftExcept id (indexes.loadTransactionEvents paqus events hash))
      (Gives.liftExcept (loadTransactionEvents_eq h hsized hindexes hhash))).outcome hreading
  · exact (readIndexes_gives (fun indexes => liftExcept id (indexes.loadAddressEvents paqus events address))
      (Gives.liftExcept (loadAddressEvents_eq h hsized hindexes haddress))).outcome hreading

end Database

namespace Reference

def savedDatabase : Database :=
  state (Database.saveLedger (eventful 1) eventApi (record genesisBlock Tip.genesis.ledger)
    ⟨Storage.empty fun _ => none, .empty, some 1⟩)

theorem savedLedger_answers :
    ∃ saved, Database.saveLedger (eventful 1) eventApi savedLedger savedDatabase = .ok () saved ∧
      saved.Answers (eventful 1) eventApi savedLedger := by
  obtain ⟨_, hsave⟩ := ok_of_isOk
    (r := Database.saveLedger (eventful 1) eventApi savedLedger savedDatabase) (by decide +kernel)
  have hquiet : (state (Database.saveLedger (eventful 1) eventApi savedLedger savedDatabase)).storage.Faultless := by
    intro n _
    rw [Database.saveLedger_faults hsave]
    rfl
  exact ⟨_, hsave, Database.saveLedger_answers hsave hquiet (by decide +kernel) (by decide +kernel)⟩

end Reference

end PaqusNetwork
