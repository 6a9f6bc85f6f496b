import PaqusNetwork.Storage.Loading

namespace PaqusNetwork

open Effect

variable {F : Type} {paqus : Paqus F} {events : EventApi} {restore : RestoreApi} {ledger : Ledger}

theorem Ledger.Held.keyed (h : ledger.Held paqus restore) : ledger.Keyed := by
  obtain ⟨height, hash, hchain⟩ := h.chain
  exact ⟨h.accounts, hchain.keyed, hchain.block_keyed⟩

theorem Ledger.Held.checkRestored (h : ledger.Held paqus restore) : Storage.checkRestored restore ledger = .ok () := by
  obtain ⟨height, hash, hchain⟩ := h.chain
  obtain ⟨tip, htip⟩ := (hchain.header height).mp (Nat.le_refl _)
  have htipHeight : ledger.tipHeight = some height := hchain.tipHeight
  have hheight := hchain.keyed height tip htip
  have hroot : Storage.expectedStateRoot restore ledger tip = .ok tip.stateRoot := by
    unfold Storage.expectedStateRoot
    cases height with
    | zero => rw [if_pos hheight, h.genesisRoot tip htipHeight htip]
    | succ height =>
      rw [if_neg (by omega), h.root height tip htipHeight htip]
      rfl
  simp [Storage.checkRestored, h.supply, htipHeight, htip, hroot, check, bind, Except.bind]

variable {block : Block}

namespace Storage

variable {storage before : Storage} {height : Nat} {hash : BlockHash} {i : Nat}

section

variable (hchain : ledger.chain.Complete paqus height hash)

include hchain

theorem archive_blocks (harchive : ledger.chain.checkpointHeight = none) :
    ∃ (block : Nat → Block) (hashOf : Nat → BlockHash), (∀ i ≤ height, ledger.chain.blocks[i]? = some (block i)) ∧
      (∀ i ≤ height, paqus.blockHash (block i) = .ok (hashOf i)) ∧ hashOf height = hash ∧
      (block 0).previousHash = 0 ∧ ∀ i < height, (block (i + 1)).previousHash = hashOf i := by
  obtain ⟨header, hashOf, hheader, hhash, hlast, hgenesis, hlinked⟩ := hchain.headers
  let block := fun i : Nat => (ledger.chain.blocks[i]?).getD ⟨⟨0, 0, 0, 0, []⟩, ⟨[], none, []⟩, ⟨0⟩⟩
  have hblock : ∀ i ≤ height, ledger.chain.blocks[i]? = some (block i) := fun i hi => by
    obtain ⟨found, hfound⟩ := hchain.archive harchive i hi
    simp [block, hfound]
  have hheaders : ∀ i ≤ height, (block i).header = header i := fun i hi =>
    Option.some.inj ((hchain.body i _ (hblock i hi)).symm.trans (hheader i hi))
  refine ⟨block, hashOf, hblock, fun i hi => ?_, hlast, ?_, fun i hi => ?_⟩
  · rw [Paqus.blockHash, hheaders i hi, hhash i hi]
  · rw [Block.previousHash, hheaders 0 (Nat.zero_le _), hgenesis]
  · rw [Block.previousHash, hheaders (i + 1) hi, hlinked i hi]

variable (hsaved : Saved paqus ledger before storage)

include hsaved

theorem loadBlock_gives (hblock : ledger.chain.blocks[i]? = some block) :
    Gives (Reading storage) (loadBlockByHeight i) (some block) := by
  have hload := @loadBlockByHeight_gives storage i
  rw [hsaved.blocks, hblock] at hload
  exact hload fun other hother => Option.some.inj hother ▸ hchain.block_keyed i block hblock

theorem loadHeader_gives {header : BlockHeader} (hheader : ledger.chain.headers[i]? = some header) :
    Gives (Reading storage) (loadHeaderByHeight i) (some header) :=
  loadHeaderByHeight_gives (by rw [hsaved.headers]; exact hheader) (hchain.keyed i header hheader)

theorem validateChainIntegrity_gives : Gives (Reading storage) (validateChainIntegrity paqus) () := by
  have htip := @loadTip_gives storage
  rw [hsaved.tip height hash hchain.tipHeight hchain.tipHash] at htip
  refine htip.bind (databaseCall_gives.bind (Gives.of_get ?_))
  rintro current ⟨_, calls, rfl⟩
  simp only [hsaved.checkpoint]
  cases hcheckpoint : ledger.chain.checkpointHeight with
  | none =>
    obtain ⟨block, hashOf, hblock, hhash, rfl, hgenesis, hlinked⟩ := archive_blocks hchain hcheckpoint
    refine (loadBlock_gives hchain hsaved (hblock height (Nat.le_refl _))).bind (Gives.pure.bind ?_)
    refine (Gives.liftExcept (hhash height (Nat.le_refl _))).bind ?_
    refine (Gives.ensure (beq_self_eq_true _)).bind ?_
    exact validateLinks_gives (fun i hi => loadBlock_gives hchain hsaved (hblock i hi)) hhash hgenesis hlinked
  | some checkpoint =>
    obtain ⟨header, hashOf, hheader, hhash, rfl, hgenesis, hlinked⟩ := hchain.headers
    refine (loadHeader_gives hchain hsaved (hheader height (Nat.le_refl _))).bind (Gives.pure.bind ?_)
    refine (Gives.liftExcept (hhash height (Nat.le_refl _))).bind ?_
    refine (Gives.ensure (beq_self_eq_true _)).bind ?_
    exact validateLinks_gives (fun i hi => loadHeader_gives hchain hsaved (hheader i hi)) hhash hgenesis hlinked

end

theorem restoreChain_gives (laws : RestoreLaws paqus restore)
    (hchain : ledger.chain.Complete paqus height hash) (hsaved : Saved paqus ledger before storage)
    {empty : Ledger} (hempty : empty.chain = Chain.new) :
    Gives (Reading storage) (restoreChain paqus restore empty) { empty with chain := ledger.chain } := by
  have htip := @loadTip_gives storage
  rw [hsaved.tip height hash hchain.tipHeight hchain.tipHash] at htip
  refine htip.bind (databaseCall_gives.bind (Gives.of_get ?_))
  rintro current ⟨_, calls, rfl⟩
  simp only [hsaved.checkpoint]
  have hvalid : ∀ (i : Nat) (block : Block), ledger.chain.blocks[i]? = some block →
      paqus.rules.validateStructure block = true := fun i block hblock =>
    storedHash_structure (hsaved.stored block (Ledger.mem_storedBlocks.mpr ⟨i, hblock⟩))
  cases hcheckpoint : ledger.chain.checkpointHeight with
  | none =>
    obtain ⟨block, hashOf, hblock, hhash, hlast, hgenesis, hlinked⟩ := archive_blocks hchain hcheckpoint
    have hheight : ∀ i ≤ height, (block i).height = i := fun i hi =>
      hchain.block_keyed i _ (hblock i hi)
    have hinsert : ∀ i < 0 + (height + 1), paqus.ledger.chainInsertBlock (below block hashOf i) (block i) =
        .ok (below block hashOf (i + 1)) := by
      intro i hi
      refine laws.insert (hhash i (by omega)) (hvalid i _ (hblock i (by omega))) ?_
      cases i with
      | zero => exact .inl ⟨rfl, hheight 0 (Nat.zero_le _), hgenesis⟩
      | succ i =>
        refine .inr ⟨i, congrArg some (hheight i (by omega)), hheight (i + 1) (by omega), ?_⟩
        rw [hlinked i (by omega)]
        rfl
    have hinserted := @insertBlocks_gives F paqus storage block hashOf (height + 1) 0 empty hempty
      (fun i hi => loadBlock_gives hchain hsaved (hblock i (by omega))) hinsert
    rw [Nat.zero_add, below_eq hchain hcheckpoint hblock hlast, ← List.range_eq_range'] at hinserted
    exact hinserted
  | some checkpoint =>
    obtain ⟨header, hashOf, hheader, hhash, -, hgenesis, hlinked⟩ := hchain.headers
    have hat : ∀ i found, ((List.range (height + 1)).map header)[i]? = some found →
        i ≤ height ∧ header i = found := by
      intro i found hfound
      rw [List.getElem?_map] at hfound
      obtain ⟨j, hj, rfl⟩ := Option.map_eq_some_iff.mp hfound
      obtain ⟨hlt, rfl⟩ := List.getElem?_eq_some_iff.mp hj
      rw [List.length_range] at hlt
      exact ⟨Nat.lt_succ_iff.mp hlt, by rw [List.getElem_range]⟩
    have hlinks : HeaderChain paqus ((List.range (height + 1)).map header) := by
      intro i found hfound
      obtain ⟨hi, rfl⟩ := hat i found hfound
      refine ⟨hchain.keyed i _ (hheader i hi), ?_⟩
      cases i with
      | zero => exact hgenesis
      | succ i =>
        have hbelow : ((List.range (height + 1)).map header)[i]? = some (header i) := by
          rw [List.getElem?_map, List.getElem?_range (by omega)]
          rfl
        refine ⟨header i, hbelow, ?_⟩
        rw [hlinked i hi]
        exact hhash i (by omega)
    refine (loadHeaders_gives fun i hi => loadHeader_gives hchain hsaved (hheader i ?_)).bind ?_
    · exact Nat.lt_succ_iff.mp (List.mem_range.mp hi)
    refine (Gives.liftExcept (laws.headers empty _ checkpoint hempty hlinks ?_)).bind ?_
    · simpa using Nat.lt_succ_of_le (hchain.checkpoint checkpoint hcheckpoint)
    have hrebuilt := ofHeaders_eq hchain hcheckpoint hheader
    have hheaders : (Chain.ofHeaders paqus ((List.range (height + 1)).map header) checkpoint).headers =
        ledger.chain.headers := by rw [← hrebuilt]
    have hattached := @attachBodies_gives F paqus restore storage (List.range (height + 1)) ledger.chain
      height hash laws hchain hsaved.blocks hvalid { empty with
        chain := Chain.ofHeaders paqus ((List.range (height + 1)).map header) checkpoint } hheaders
    rw [show (Chain.ofHeaders paqus ((List.range (height + 1)).map header) checkpoint).blocks = ∅ from rfl,
      hrebuilt] at hattached
    exact hattached

/-- The tables that `save_ledger` left give the ledger back. -/
theorem loadTables_gives (laws : RestoreLaws paqus restore) (hheld : ledger.Held paqus restore)
    (hsaved : Saved paqus ledger before storage) :
    Gives (Reading storage) (loadTables paqus restore) ledger := by
  obtain ⟨height, hash, hchain⟩ := hheld.chain
  refine (validateChainIntegrity_gives hchain hsaved).bind ?_
  have haccounts := @loadAccounts_gives storage (by rw [hsaved.accounts]; exact hheld.accounts)
  rw [hsaved.accounts] at haccounts
  refine haccounts.bind ((Gives.liftExcept (laws.accounts _ _ hheld.accounts)).bind ?_)
  have hstate : ∀ empty : Ledger, Gives (Reading storage) (restoreProtocolState empty)
      { empty with qcashUtxos := ledger.qcashUtxos, eventsByBlock := ledger.eventsByBlock } := by
    intro empty
    refine databaseCall_gives.bind (Gives.of_get ?_)
    rintro current ⟨_, calls, rfl⟩
    simp only [hsaved.protocolState]
    exact Gives.pure
  refine (hstate _).bind ?_
  refine Gives.bind (restoreChain_gives laws hchain hsaved ?_) ?_
  · exact congrArg Ledger.chain laws.new
  · exact (Gives.liftExcept hheld.checkRestored).bind Gives.pure

end Storage

namespace Database

/-- The databases that saves leave, whether they succeed or fail, from an opened empty one on. -/
inductive Written (paqus : Paqus F) (events : EventApi) (restore : RestoreApi) : Database → Prop
  | opened {faults : Nat → Option StorageError} {u : Unit} {database : Database}
      (open_eq : ensureStorageVersion restore ⟨Storage.empty faults, .empty, none⟩ = .ok u database) :
      Written paqus events restore database
  | saveLedger {database : Database} (ledger : Ledger) (before : Written paqus events restore database) :
      Written paqus events restore (state (Database.saveLedger paqus events ledger database))
  | saveSideBlock {database : Database} (block : Block) (before : Written paqus events restore database) :
      Written paqus events restore (state (Database.saveSideBlock paqus block database))

theorem onTables_version {α : Type} (program : StorageM α) : Leaves Database.version (onTables program) :=
  Leaves.focus fun _ _ => rfl

theorem saveLedger_version (ledger : Ledger) : Leaves Database.version (Database.saveLedger paqus events ledger) := by
  refine leaves_of_keeps fun version => ?_
  have hcall : Keeps (fun database : Database => database.version = version) (onTables Storage.databaseCall) :=
    (onTables_version _).keeps (· = version)
  refine Keeps.bind_liftExcept fun accounts _ => hcall.bind fun _ => ?_
  refine Yields.of_get fun database hversion => ?_
  cases hstore : storeChain paqus events ledger ledger.storedBlocks { database with
      storage := { database.storage with blocksByHeight := ∅ }, indexes := .empty } with
  | error error => exact hversion
  | ok stored =>
    rw [liftExcept_ok, pure_bind, bind_ok (set_apply _ _)]
    exact hcall _ ((storeChain_eq_ok hstore).2.2.trans hversion)

variable {database : Database} {u : Unit}

theorem ensureStorageVersion_opened {opened : Database} (h : ensureStorageVersion restore database = .ok u opened) :
    opened.version = some restore.storageVersion := by
  obtain ⟨_, called, _, hreading⟩ := bind_eq_ok.mp h
  rw [get_bind] at hreading
  cases hversion : called.version with
  | some found =>
    simp only [hversion] at hreading
    obtain ⟨hfound, rfl⟩ := ensure_eq_ok.mp hreading
    rw [hversion, beq_iff_eq.mp hfound]
  | none =>
    simp only [hversion] at hreading
    obtain ⟨_, counted, _, hchecking⟩ := bind_eq_ok.mp hreading
    rw [get_bind] at hchecking
    obtain ⟨_, checked, _, hwriting⟩ := bind_eq_ok.mp hchecking
    obtain ⟨_, writing, _, hflushing⟩ := bind_eq_ok.mp hwriting
    rw [modify_bind] at hflushing
    obtain ⟨_, _, rfl⟩ := focus_eq_ok.mp hflushing
    rfl

theorem Written.version (h : Written paqus events restore database) :
    database.version = some restore.storageVersion := by
  induction h with
  | opened open_eq => exact ensureStorageVersion_opened open_eq
  | saveLedger ledger _ ih => exact (saveLedger_version ledger _).trans ih
  | saveSideBlock block _ ih => exact (onTables_version _ _).trans ih

/-- After `save_ledger`, whatever was saved before, `load_ledger` succeeds and returns the ledger. -/
theorem loadLedger_saveLedger (laws : RestoreLaws paqus restore) {database saved : Database} {u : Unit}
    (hwritten : Written paqus events restore database) (hheld : ledger.Held paqus restore)
    (hsave : Database.saveLedger paqus events ledger database = .ok u saved)
    (hquiet : saved.storage.Faultless) : outcome (loadLedger paqus restore saved) = .ok ledger := by
  obtain ⟨htables, _, hversion⟩ := saveLedger_eq_ok hsave
  have hsaved := Storage.saveLedger_saved hheld.keyed htables
  rw [hwritten.version] at hversion
  have hopened : Gives (Reading saved) (ensureStorageVersion restore) () := by
    refine (onTables_gives Storage.databaseCall_gives).bind (Gives.of_get fun current hcurrent => ?_)
    simp only [hcurrent.version, hversion]
    exact Gives.ensure (beq_self_eq_true _)
  exact (hopened.bind (onTables_gives (Storage.loadTables_gives laws hheld hsaved))).outcome (.refl hquiet)

end Database

namespace Reference

def restoreApi : RestoreApi where
  storageVersion := 1
  replaceAccounts ledger accounts := .ok { ledger with accounts }
  restoreAuthenticatedHeaders ledger headers checkpointHeight :=
    .ok { ledger with chain := Chain.ofHeaders (eventful 0) headers checkpointHeight }
  attachStoredBlockBody ledger block :=
    .ok { ledger with chain := { ledger.chain with
      blocks := ledger.chain.blocks.insert block.height block } }
  validateSupply _ := .ok ()
  stateRoot _ := 0
  protocolStateRoot ledger := .ok (booksOf ledger).stateRoot

theorem restore_laws (depth : Nat) : RestoreLaws (eventful depth) restoreApi where
  new := rfl
  accounts _ _ _ := rfl
  headers _ _ _ _ _ _ := rfl
  attach _ _ _ _ := rfl
  insert hhash _ _ := by
    cases hhash
    rfl

theorem savedLedger_complete : savedLedger.chain.Complete (eventful 1) 1 101 := by
  have hheaders : savedLedger.chain.headers.toList = [(0, genesisBlock.header), (1, savedTip.block.header)] := by
    decide +kernel
  have hblocks : savedLedger.chain.blocks.toList = [(0, genesisBlock), (1, savedTip.block)] := by decide +kernel
  have hheader : ∀ {i : Nat} {header}, savedLedger.chain.headers[i]? = some header ↔
      i = 0 ∧ header = genesisBlock.header ∨ i = 1 ∧ header = savedTip.block.header := by
    simp [← Std.ExtTreeMap.mem_toList_iff_getElem?_eq_some, hheaders]
  have hblock : ∀ {i : Nat} {block}, savedLedger.chain.blocks[i]? = some block ↔
      i = 0 ∧ block = genesisBlock ∨ i = 1 ∧ block = savedTip.block := by
    simp [← Std.ExtTreeMap.mem_toList_iff_getElem?_eq_some, hblocks]
  refine ⟨by decide +kernel, by decide +kernel, fun i header hfound => ?_, fun i => ?_, fun header hfound => ?_,
    fun i header next hfound hnext => ?_, fun header hfound => ?_, fun i block hfound => ?_, fun _ i hi => ?_,
    fun c hc => ?_⟩
  · rcases hheader.mp hfound with ⟨rfl, rfl⟩ | ⟨rfl, rfl⟩ <;> rfl
  · simp only [hheader, exists_or, exists_and_left, exists_eq, and_true]
    omega
  · rcases hheader.mp hfound with ⟨_, rfl⟩ | ⟨hi, _⟩
    · rfl
    · cases hi
  · rcases hheader.mp hfound with ⟨rfl, rfl⟩ | ⟨rfl, rfl⟩
    all_goals rcases hheader.mp hnext with ⟨hi, rfl⟩ | ⟨hi, rfl⟩ <;> first | rfl | cases hi
  · rcases hheader.mp hfound with ⟨hi, _⟩ | ⟨_, rfl⟩
    · cases hi
    · rfl
  · rcases hblock.mp hfound with ⟨rfl, rfl⟩ | ⟨rfl, rfl⟩ <;> simp [hheader]
  · simp only [hblock, exists_or, exists_and_left, exists_eq, and_true]
    omega
  · cases (show savedLedger.chain.checkpointHeight = none by decide +kernel).symm.trans hc

theorem savedLedger_held : savedLedger.Held (eventful 1) restoreApi where
  accounts address account haccount := by
    have hkeyed : ∀ entry ∈ savedLedger.accounts.toList, entry.2.address = entry.1 := by decide +kernel
    exact hkeyed (address, account) (Std.ExtTreeMap.mem_toList_iff_getElem?_eq_some.mpr haccount)
  chain := ⟨1, 101, savedLedger_complete⟩
  supply := rfl
  genesisRoot _ htip := by
    have htall : savedLedger.tipHeight = some 1 := by decide +kernel
    rw [htall] at htip
    cases htip
  root height tip hheight htip := by
    have htall : savedLedger.tipHeight = some 1 := by decide +kernel
    have hroot : (savedLedger.chain.headers[1]?).map BlockHeader.stateRoot =
        some (booksOf savedLedger).stateRoot := by decide +kernel
    obtain rfl : height = 0 := by
      rw [htall] at hheight
      exact (Nat.succ.inj (Option.some.inj hheight)).symm
    rw [htip] at hroot
    exact congrArg Except.ok (Option.some.inj hroot).symm

def reusedDatabase : Database :=
  state (Database.saveLedger (eventful 1) eventApi (record genesisBlock Tip.genesis.ledger)
    (state (Database.ensureStorageVersion restoreApi ⟨Storage.empty fun _ => none, .empty, none⟩)))

theorem saved_then_loaded :
    ∃ saved, Database.saveLedger (eventful 1) eventApi savedLedger reusedDatabase = .ok () saved ∧
      outcome (Database.loadLedger (eventful 1) restoreApi saved) = .ok savedLedger := by
  obtain ⟨_, hopen⟩ := ok_of_isOk (r := Database.ensureStorageVersion restoreApi
    ⟨Storage.empty fun _ => none, .empty, none⟩) (by decide +kernel)
  have hwritten : Database.Written (eventful 1) eventApi restoreApi reusedDatabase := .saveLedger _ (.opened hopen)
  obtain ⟨_, hsave⟩ := ok_of_isOk
    (r := Database.saveLedger (eventful 1) eventApi savedLedger reusedDatabase) (by decide +kernel)
  have hquiet : (state (Database.saveLedger (eventful 1) eventApi savedLedger
      reusedDatabase)).storage.Faultless := by
    intro n _
    rw [Database.saveLedger_faults hsave]
    rfl
  exact ⟨_, hsave, Database.loadLedger_saveLedger (restore_laws 1) hwritten savedLedger_held hsave hquiet⟩

end Reference

end PaqusNetwork
