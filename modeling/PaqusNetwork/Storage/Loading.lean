import PaqusNetwork.Protocol.Restore
import PaqusNetwork.Storage.Answers

namespace PaqusNetwork

open Effect Std

namespace Storage

def loadHeaderByHeight (height : Nat) : StorageM (Option BlockHeader) := do
  databaseCall
  let header ← match (← get).headersByHeight[height]? with
    | some header => pure (some header)
    | none => return (← loadBlockByHeight height).map Block.header
  ensure (.integrity "stored header height does not match height key")
    (header.all fun header => header.height == height)
  return header

/-- The texts of the errors of one descent along the chain. -/
structure LinkTexts where
  missing : String
  wrongHash : String
  missingPrevious : String

/-- The descent from a height to the genesis block. The source has one such loop over blocks and one over
headers. -/
def validateLinks {α : Type} (load : Nat → StorageM (Option α)) (hashOf : α → Except CodecError BlockHash)
    (previousHash : α → Hash) (texts : LinkTexts) : Nat → BlockHash → StorageM Unit
  | 0, expectedHash => do
    let item ← orThrow (.integrity texts.missing) (← load 0)
    ensure (.integrity texts.wrongHash) ((← liftExcept .codec (hashOf item)) == expectedHash)
    ensure (.integrity "stored genesis block previous hash is not zero") (previousHash item == 0)
  | height + 1, expectedHash => do
    let item ← orThrow (.integrity texts.missing) (← load (height + 1))
    ensure (.integrity texts.wrongHash) ((← liftExcept .codec (hashOf item)) == expectedHash)
    let previous ← orThrow (.integrity texts.missingPrevious) (← load height)
    let previousItemHash ← liftExcept .codec (hashOf previous)
    ensure (.integrity "stored chain block previous hash is broken") (previousHash item == previousItemHash)
    validateLinks load hashOf previousHash texts height previousItemHash

variable {F : Type} (paqus : Paqus F)

def validateChainIntegrity : StorageM Unit := do
  match ← loadTip with
  | none => return ()
  | some (tipHeight, tipHash) =>
    databaseCall
    match (← get).checkpointHeight with
    | none =>
      let tipBlock ← orThrow (.integrity "stored tip height block is missing") (← loadBlockByHeight tipHeight)
      ensure (.integrity "stored tip hash does not match tip height block")
        ((← liftExcept .codec (paqus.blockHash tipBlock)) == tipHash)
      validateLinks loadBlockByHeight paqus.blockHash Block.previousHash ⟨"stored chain block is missing",
        "stored chain block hash does not match expected hash",
        "stored previous chain block is missing"⟩ tipHeight tipHash
    | some _ =>
      let tipHeader ← orThrow (.integrity "stored tip height header is missing") (← loadHeaderByHeight tipHeight)
      ensure (.integrity "stored tip hash does not match tip height header")
        ((← liftExcept .codec (paqus.codec.headerHash tipHeader)) == tipHash)
      validateLinks loadHeaderByHeight paqus.codec.headerHash BlockHeader.previousHash
        ⟨"stored chain header is missing", "stored chain header hash does not match expected hash",
          "stored previous chain header is missing"⟩ tipHeight tipHash

def collectAccounts : List (Address × Account) → BTreeMap Address Account →
    Except StorageError (BTreeMap Address Account)
  | [], accounts => .ok accounts
  | (key, account) :: rest, accounts => do
    check (.integrity "stored account address does not match account key") (account.address == key)
    collectAccounts rest (accounts.insert account.address account)

def loadAccounts : StorageM (BTreeMap Address Account) := do
  databaseCall
  liftExcept id (collectAccounts (← get).accounts.toList ∅)

def restoreProtocolState (ledger : Ledger) : StorageM Ledger := do
  databaseCall
  match (← get).protocolState with
  | some state => return { ledger with qcashUtxos := state.qcashUtxos, eventsByBlock := state.eventsByBlock }
  | none => return ledger

def loadHeaders : List Nat → StorageM (List BlockHeader)
  | [] => return []
  | height :: rest => do
    let header ← orThrow (.integrity "stored chain header is missing") (← loadHeaderByHeight height)
    return header :: (← loadHeaders rest)

variable (restore : RestoreApi)

def attachBodies : List Nat → Ledger → StorageM Ledger
  | [], ledger => return ledger
  | height :: rest, ledger => do
    match ← loadBlockByHeight height with
    | none => attachBodies rest ledger
    | some block =>
      let ledger ← liftExcept (fun _ => .integrity "stored block body does not match its header")
        (restore.attachStoredBlockBody ledger block)
      attachBodies rest ledger

def insertBlocks : List Nat → Ledger → StorageM Ledger
  | [], ledger => return ledger
  | height :: rest, ledger => do
    let block ← orThrow (.integrity "stored chain block is missing") (← loadBlockByHeight height)
    let chain ← liftExcept (fun _ => .integrity "stored chain block is invalid")
      (paqus.ledger.chainInsertBlock ledger.chain block)
    insertBlocks rest { ledger with chain }

/-- The chain up to the tip: from the headers and the stored bodies where the database has a checkpoint,
else from the blocks. -/
def restoreChain (ledger : Ledger) : StorageM Ledger := do
  match ← loadTip with
  | none => return ledger
  | some (tipHeight, _) =>
    databaseCall
    match (← get).checkpointHeight with
    | some checkpointHeight =>
      let headers ← loadHeaders (List.range (tipHeight + 1))
      let ledger ← liftExcept (fun _ => .integrity "stored authenticated header chain is invalid")
        (restore.restoreAuthenticatedHeaders ledger headers checkpointHeight)
      attachBodies restore (List.range (tipHeight + 1)) ledger
    | none => insertBlocks paqus (List.range (tipHeight + 1)) ledger

/-- The state root that the tip of a ledger has to carry. -/
def expectedStateRoot (ledger : Ledger) (tip : BlockHeader) : Except StorageError Hash :=
  if tip.height = 0 then .ok (restore.stateRoot ledger)
  else (restore.protocolStateRoot ledger).mapError fun _ => .integrity "failed to rebuild stored protocol state root"

def checkRestored (ledger : Ledger) : Except StorageError Unit := do
  (restore.validateSupply ledger).mapError fun _ => .integrity "stored ledger supply is invalid"
  match ledger.tipHeight with
  | none => return ()
  | some tipHeight =>
    match ledger.chain.headers[tipHeight]? with
    | none => throw (.integrity "stored canonical tip is missing")
    | some tip =>
      let root ← expectedStateRoot restore ledger tip
      check (.integrity "stored ledger state root does not match canonical tip") (tip.stateRoot == root)

def loadTables : StorageM Ledger := do
  validateChainIntegrity paqus
  let accounts ← loadAccounts
  let ledger ← liftExcept (fun _ => .integrity "failed to rebuild account state tree")
    (restore.replaceAccounts paqus.ledger.new accounts)
  let ledger ← restoreProtocolState ledger
  let ledger ← restoreChain paqus restore ledger
  liftExcept id (checkRestored restore ledger)
  return ledger

end Storage

namespace Database

def isEmptyDatabase (database : Database) : Bool :=
  database.storage.blocksByHeight.isEmpty && database.storage.blocksByHash.isEmpty &&
    database.storage.headersByHeight.isEmpty && database.storage.accounts.isEmpty &&
    database.storage.genesisAccounts.isNone && database.indexes.txIndex.isEmpty &&
    database.indexes.wtxIndex.isEmpty && database.indexes.addressTxIndex.isEmpty &&
    database.indexes.minerBlockIndex.isEmpty && database.indexes.eventsById.isEmpty &&
    database.indexes.blockEventIndex.isEmpty && database.indexes.transactionEventIndex.isEmpty &&
    database.indexes.addressEventIndex.isEmpty && database.storage.rollbackIssues.isEmpty &&
    database.storage.rollbackProofContexts.isEmpty

variable {F : Type} (paqus : Paqus F) (restore : RestoreApi)

def ensureStorageVersion : DatabaseM Unit := do
  onTables Storage.databaseCall
  match (← get).version with
  | some found =>
    ensure (.unsupportedStorageVersion restore.storageVersion found) (found == restore.storageVersion)
  | none =>
    onTables Storage.databaseCall
    ensure .missingStorageVersion (← get).isEmptyDatabase
    onTables Storage.databaseCall
    modify fun database => { database with version := some restore.storageVersion }
    onTables Storage.databaseCall

def loadLedger : DatabaseM Ledger := do
  ensureStorageVersion restore
  onTables (Storage.loadTables paqus restore)

end Database

variable {F : Type} {paqus : Paqus F} {restore : RestoreApi}

namespace Storage

variable {storage : Storage}

variable {heights : List Nat} {block : Nat → Block} {height : Nat}

theorem loadHeaderByHeight_gives {header : BlockHeader} (h : storage.headersByHeight[height]? = some header)
    (hheight : header.height = height) : Gives (Reading storage) (loadHeaderByHeight height) (some header) := by
  refine databaseCall_gives.bind (Gives.of_get ?_)
  rintro current ⟨_, calls, rfl⟩
  simp only [h]
  exact Gives.pure.bind ((Gives.ensure (by simpa using hheight)).bind Gives.pure)

theorem validateLinks_gives {α : Type} {load : Nat → StorageM (Option α)} {hashOf : α → Except CodecError BlockHash}
    {previousHash : α → Hash} {texts : LinkTexts} {item : Nat → α} {hash : Nat → BlockHash}
    (hload : ∀ i ≤ height, Gives (Reading storage) (load i) (some (item i)))
    (hhash : ∀ i ≤ height, hashOf (item i) = .ok (hash i)) (hgenesis : previousHash (item 0) = 0)
    (hlinked : ∀ i < height, previousHash (item (i + 1)) = hash i) :
    Gives (Reading storage) (validateLinks load hashOf previousHash texts height (hash height)) () := by
  induction height with
  | zero =>
    refine (hload 0 (Nat.le_refl _)).bind (Gives.pure.bind ?_)
    refine (Gives.liftExcept (hhash 0 (Nat.le_refl _))).bind ((Gives.ensure (beq_self_eq_true _)).bind ?_)
    exact Gives.ensure (by simpa using hgenesis)
  | succ height ih =>
    refine (hload (height + 1) (Nat.le_refl _)).bind (Gives.pure.bind ?_)
    refine (Gives.liftExcept (hhash (height + 1) (Nat.le_refl _))).bind ?_
    refine (Gives.ensure (beq_self_eq_true _)).bind ?_
    refine (hload height (Nat.le_succ _)).bind (Gives.pure.bind ?_)
    refine (Gives.liftExcept (hhash height (Nat.le_succ _))).bind ?_
    refine (Gives.ensure (by simpa using hlinked height (Nat.lt_succ_self _))).bind ?_
    exact ih (fun i hi => hload i (by omega)) (fun i hi => hhash i (by omega)) fun i hi => hlinked i (by omega)

theorem collectAccounts_eq {entries : List (Address × Account)} {accounts : BTreeMap Address Account}
    (h : ∀ entry ∈ entries, entry.2.address = entry.1) :
    collectAccounts entries accounts = .ok (ByteTable.writeAll entries accounts) := by
  induction entries generalizing accounts with
  | nil => rfl
  | cons entry rest ih =>
    obtain ⟨key, account⟩ := entry
    have hkey : account.address = key := h (key, account) (by simp)
    have hrest := @ih (accounts.insert key account) fun other hother => h other (by simp [hother])
    simp only [collectAccounts, hkey, beq_self_eq_true]
    exact hrest

theorem loadAccounts_gives (h : ∀ (address : Address) (account : Account),
    storage.accounts[address]? = some account → account.address = address) :
    Gives (Reading storage) loadAccounts storage.accounts := by
  refine databaseCall_gives.bind (Gives.of_get ?_)
  rintro current ⟨_, calls, rfl⟩
  refine Gives.liftExcept ?_
  rw [collectAccounts_eq, ByteTable.writeAll_toList]
  exact fun entry hentry => h _ _ (ExtTreeMap.mem_toList_iff_getElem?_eq_some.mp hentry)

variable {header : Nat → BlockHeader}

theorem loadHeaders_gives (h : ∀ i ∈ heights, Gives (Reading storage) (loadHeaderByHeight i) (some (header i))) :
    Gives (Reading storage) (loadHeaders heights) (heights.map header) := by
  induction heights with
  | nil => exact Gives.pure
  | cons height rest ih =>
    refine (h height (by simp)).bind (Gives.pure.bind ?_)
    exact (ih fun i hi => h i (by simp [hi])).bind Gives.pure

section Chain

variable {chain : Chain} {height : Nat} {hash : BlockHash}

def attached (chain : Chain) (heights : List Nat) (table : BTreeMap Nat Block) : BTreeMap Nat Block :=
  heights.foldl (fun table height => match chain.blocks[height]? with
    | some block => table.insert height block
    | none => table) table

theorem getElem?_attached {table : BTreeMap Nat Block} (key : Nat) :
    (attached chain heights table)[key]? =
      if key ∈ heights then (chain.blocks[key]?).or table[key]? else table[key]? := by
  induction heights generalizing table with
  | nil => simp [attached]
  | cons first rest ih =>
    have hstep := @ih (match chain.blocks[first]? with
      | some block => table.insert first block
      | none => table)
    unfold attached at hstep ⊢
    rw [List.foldl_cons, hstep]
    by_cases hfirst : key = first
    · subst hfirst
      cases hfound : chain.blocks[key]? <;> simp
    · have hne : first ≠ key := fun he => hfirst he.symm
      cases chain.blocks[first]? <;> simp [hfirst, OrderedMap.getElem?_insert, hne]

theorem attachBodies_gives (laws : RestoreLaws paqus restore) (hchain : chain.Complete paqus height hash)
    (hblocks : storage.blocksByHeight = chain.blocks)
    (hvalid : ∀ (i : Nat) (block : Block), chain.blocks[i]? = some block → paqus.rules.validateStructure block = true)
    {ledger : Ledger} (hheaders : ledger.chain.headers = chain.headers) :
    Gives (Reading storage) (attachBodies restore heights ledger)
      { ledger with chain := { ledger.chain with blocks := attached chain heights ledger.chain.blocks } } := by
  induction heights generalizing ledger with
  | nil => exact Gives.pure
  | cons first rest ih =>
    have hload := @loadBlockByHeight_gives storage first
    rw [hblocks] at hload
    refine (hload fun block hblock => hchain.block_keyed first block hblock).bind ?_
    cases hfound : chain.blocks[first]? with
    | none =>
      have hrest := ih hheaders
      simp only [attached, List.foldl_cons, hfound] at hrest ⊢
      exact hrest
    | some block =>
      have hfirst := hchain.block_keyed first block hfound
      have hheader : ledger.chain.headers[block.height]? = some block.header := by
        rw [hheaders, hfirst]
        exact hchain.body first block hfound
      refine (Gives.liftExcept (laws.attach ledger block hheader (hvalid first block hfound))).bind ?_
      have hrest := @ih { ledger with chain := { ledger.chain with
        blocks := ledger.chain.blocks.insert block.height block } } hheaders
      simp only [attached, List.foldl_cons, hfound, hfirst] at hrest ⊢
      exact hrest

def below (block : Nat → Block) (hash : Nat → BlockHash) : Nat → Chain
  | 0 => Chain.new
  | height + 1 => (below block hash height).push (block height) (hash height)

theorem insertBlocks_gives {hash : Nat → BlockHash}
    {count start : Nat} {ledger : Ledger} (hledger : ledger.chain = below block hash start)
    (hload : ∀ i < start + count, Gives (Reading storage) (loadBlockByHeight i) (some (block i)))
    (hinsert : ∀ i < start + count, paqus.ledger.chainInsertBlock (below block hash i) (block i) =
      .ok (below block hash (i + 1))) :
    Gives (Reading storage) (insertBlocks paqus (List.range' start count) ledger)
      { ledger with chain := below block hash (start + count) } := by
  induction count generalizing start ledger with
  | zero =>
    rw [Nat.add_zero, ← hledger]
    exact Gives.pure
  | succ count ih =>
    rw [List.range'_succ]
    refine (hload start (by omega)).bind (Gives.pure.bind ?_)
    rw [hledger]
    refine (Gives.liftExcept (hinsert start (by omega))).bind ?_
    have hrest := @ih (start + 1) { ledger with chain := below block hash (start + 1) } rfl
      (fun i hi => hload i (by omega)) fun i hi => hinsert i (by omega)
    rw [show start + 1 + count = start + (count + 1) by omega] at hrest
    exact hrest

theorem below_blocks {hash : Nat → BlockHash} {count : Nat} (h : ∀ i < count, (block i).height = i) (key : Nat) :
    (below block hash count).blocks[key]? = (if key < count then some (block key) else none) ∧
      (below block hash count).headers[key]? = (if key < count then some (block key).header else none) := by
  induction count with
  | zero => simp [below, Chain.new]
  | succ count ih =>
    obtain ⟨hblocks, hheaders⟩ := ih fun i hi => h i (by omega)
    have hlast := h count (Nat.lt_succ_self _)
    simp only [below, Chain.push, OrderedMap.getElem?_insert, hlast, hblocks, hheaders]
    by_cases hkey : count = key
    · subst hkey
      simp
    · have hlt : key < count ↔ key < count + 1 := by omega
      simp only [if_neg hkey, hlt, and_self]

theorem below_eq (hchain : chain.Complete paqus height hash) (harchive : chain.checkpointHeight = none)
    {hashOf : Nat → BlockHash}
    (hblock : ∀ i ≤ height, chain.blocks[i]? = some (block i)) (hhash : hashOf height = hash) :
    below block hashOf (height + 1) = chain := by
  have hheight : ∀ i < height + 1, (block i).height = i := fun i hi =>
    hchain.block_keyed i _ (hblock i (by omega))
  have hcheckpoint : ∀ count, (below block hashOf count).checkpointHeight = none := by
    intro count
    induction count with
    | zero => rfl
    | succ count ih => exact ih
  have habove : ∀ i, ¬i < height + 1 → chain.headers[i]? = none := fun i hi =>
    Option.eq_none_iff_forall_ne_some.mpr fun header hheader =>
      hi (Nat.lt_succ_of_le ((hchain.header i).mpr ⟨header, hheader⟩))
  refine Chain.ext ?_ ?_ ?_ ?_ ?_
  · refine ExtTreeMap.ext_getElem? fun key => ?_
    rw [(below_blocks hheight key).2]
    split
    next hkey => exact (hchain.body key _ (hblock key (by omega))).symm
    next hkey => exact (habove key hkey).symm
  · refine ExtTreeMap.ext_getElem? fun key => ?_
    rw [(below_blocks hheight key).1]
    split
    next hkey => exact (hblock key (by omega)).symm
    next hkey =>
      refine (Option.eq_none_iff_forall_ne_some.mpr fun found hfound => ?_).symm
      have hheader := hchain.body key found hfound
      rw [habove key hkey] at hheader
      cases hheader
  · exact (congrArg some (hheight height (Nat.lt_succ_self _))).trans hchain.tipHeight.symm
  · rw [hchain.tipHash, ← hhash]
    rfl
  · rw [hcheckpoint, harchive]

theorem ofHeaders_eq (hchain : chain.Complete paqus height hash) {checkpoint : Nat}
    (hcheckpoint : chain.checkpointHeight = some checkpoint)
    (hheader : ∀ i ≤ height, chain.headers[i]? = some (header i)) :
    ({ Chain.ofHeaders paqus ((List.range (height + 1)).map header) checkpoint with
      blocks := attached chain (List.range (height + 1)) ∅ } : Chain) = chain := by
  have hlast : ((List.range (height + 1)).map header).getLast? = some (header height) := by
    rw [List.range_succ, List.map_append]
    simp
  have hkeyed : ∀ i ≤ height, (header i).height = i := fun i hi => hchain.keyed i _ (hheader i hi)
  have habove : ∀ i found, chain.headers[i]? = some found → i ≤ height := fun i found hfound =>
    (hchain.header i).mpr ⟨found, hfound⟩
  refine Chain.ext ?_ ?_ ?_ ?_ hcheckpoint.symm
  · refine ExtTreeMap.ext_getElem? fun key => Option.ext fun value => ?_
    have hwrites : (((List.range (height + 1)).map header).foldl
        (fun table header => table.insert header.height header) ∅ : BTreeMap Nat BlockHeader) =
          ByteTable.writeAll ((List.range (height + 1)).map fun i => (i, header i)) ∅ := by
      unfold ByteTable.writeAll
      rw [List.foldl_map, List.foldl_map]
      refine List.foldl_ext _ _ _ fun table i hi => ?_
      rw [hkeyed i (Nat.lt_succ_iff.mp (List.mem_range.mp hi))]
    unfold Chain.ofHeaders
    rw [hwrites, ByteTable.getElem?_writeAll]
    · simp only [List.mem_map, List.mem_range, Prod.mk.injEq]
      constructor
      · rintro ⟨i, hi, rfl, rfl⟩
        exact hheader i (by omega)
      · intro hfound
        have hle := habove key value hfound
        rw [hheader key hle] at hfound
        exact ⟨key, by omega, rfl, Option.some.inj hfound⟩
    · intro left hleft right hright heq
      obtain ⟨i, _, rfl⟩ := List.mem_map.mp hleft
      obtain ⟨j, _, rfl⟩ := List.mem_map.mp hright
      rw [show i = j from heq]
  · refine ExtTreeMap.ext_getElem? fun key => ?_
    rw [getElem?_attached]
    split
    next => simp
    next hkey =>
      rw [ExtTreeMap.getElem?_empty]
      refine (Option.eq_none_iff_forall_ne_some.mpr fun found hfound => ?_).symm
      have hle := habove key _ (hchain.body key found hfound)
      exact hkey (List.mem_range.mpr (Nat.lt_succ_of_le hle))
  · simp only [Chain.ofHeaders, hlast, Option.map_some, hkeyed height (Nat.le_refl _), hchain.tipHeight]
  · simp only [Chain.ofHeaders, hlast, Option.bind_some, hchain.tip _ (hheader height (Nat.le_refl _)),
      hchain.tipHash, Except.toOption]

end Chain

end Storage

end PaqusNetwork
