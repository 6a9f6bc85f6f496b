import PaqusNetwork.Storage.Database
import Mathlib.Tactic.MkIffOfInductiveProp

namespace PaqusNetwork

open Effect Numeric ByteTable Std

variable {F : Type} (paqus : Paqus F) (events : EventApi)

def Paqus.blockDigest (block : Block) : BlockHash := (paqus.blockHash block).toOption.getD 0

def Paqus.transactionDigest (transaction : SignedProtocolTransaction) : TransactionHash :=
  (paqus.codec.transactionHash transaction).toOption.getD 0

def EventApi.digest (event : ProtocolEvent) : Hash := (events.id event).toOption.getD 0

def locationOf (block : Block) (transaction : SignedProtocolTransaction) (index : Nat) :
    TransactionLocation :=
  ⟨block.height, paqus.blockDigest block, index, transaction.family⟩

def addressLocationOf (block : Block) (transaction : SignedProtocolTransaction) (index : Nat)
    (sent : Bool) : AddressTransactionLocation :=
  ⟨paqus.transactionDigest transaction, block.height, paqus.blockDigest block, index, sent, transaction.family⟩

def transactionEntry (block : Block) (entry : SignedProtocolTransaction × Nat) : List UInt8 × TransactionLocation :=
  (hashKey paqus (paqus.transactionDigest entry.1), locationOf paqus block entry.1 entry.2)

def addressEntries (block : Block) (entry : SignedProtocolTransaction × Nat) :
    List (List UInt8 × AddressTransactionLocation) :=
  (transactionAddresses entry.1).map fun role =>
    (addressTxKey events role.1 block.height entry.2 role.2, addressLocationOf paqus block entry.1 entry.2 role.2)

def minerEntries (block : Block) : List (List UInt8 × MinerBlockLocation) :=
  if block.body.coinbase.isNone then []
  else [(minerBlockKey events (paqus.rules.minerAddress block) block.height, ⟨block.height, paqus.blockDigest block⟩)]

def eventEntry (event : ProtocolEvent) : List UInt8 × ProtocolEvent := (hashKey paqus (events.digest event), event)

def blockEventEntry (event : ProtocolEvent) : List UInt8 × Hash :=
  (blockEventKey paqus event.blockHash event.eventIndex, events.digest event)

def transactionEventEntry (event : ProtocolEvent) : Option (List UInt8 × Hash) :=
  event.transactionHash.map fun hash =>
    (transactionEventKey paqus hash event.eventIndex, events.digest event)

def addressEventEntries (event : ProtocolEvent) : List (List UInt8 × Hash) :=
  (eventAddresses event.kind).map fun address =>
    (addressEventKey events address event.blockHeight event.eventIndex, events.digest event)

structure Entries where
  transactions : List (List UInt8 × TransactionLocation)
  addresses : List (List UInt8 × AddressTransactionLocation)
  miners : List (List UInt8 × MinerBlockLocation)
  events : List ProtocolEvent

namespace Entries

def append (first second : Entries) : Entries :=
  ⟨first.transactions ++ second.transactions, first.addresses ++ second.addresses,
    first.miners ++ second.miners, first.events ++ second.events⟩

def ofTransactions (block : Block) (entries : List (SignedProtocolTransaction × Nat)) : Entries :=
  ⟨entries.map (transactionEntry paqus block), entries.flatMap (addressEntries paqus events block), [], []⟩

def ofBlock (ledger : Ledger) (block : Block) : Entries :=
  ⟨block.transactions.zipIdx.map (transactionEntry paqus block),
    block.transactions.zipIdx.flatMap (addressEntries paqus events block), minerEntries paqus events block,
    ledger.eventsForBlock (paqus.blockDigest block)⟩

def ofChain (ledger : Ledger) (blocks : List Block) : Entries :=
  ⟨blocks.flatMap fun block => (ofBlock paqus events ledger block).transactions,
    blocks.flatMap fun block => (ofBlock paqus events ledger block).addresses,
    blocks.flatMap (minerEntries paqus events),
    blocks.flatMap fun block => ledger.eventsForBlock (paqus.blockDigest block)⟩

end Entries

def Indexes.write (entries : Entries) (indexes : Indexes) : Indexes where
  txIndex := writeAll entries.transactions indexes.txIndex
  wtxIndex := writeAll entries.transactions indexes.wtxIndex
  addressTxIndex := writeAll entries.addresses indexes.addressTxIndex
  minerBlockIndex := writeAll entries.miners indexes.minerBlockIndex
  eventsById := writeAll (entries.events.map (eventEntry paqus events)) indexes.eventsById
  blockEventIndex := writeAll (entries.events.map (blockEventEntry paqus events)) indexes.blockEventIndex
  transactionEventIndex :=
    writeAll (entries.events.filterMap (transactionEventEntry paqus events)) indexes.transactionEventIndex
  addressEventIndex :=
    writeAll (entries.events.flatMap (addressEventEntries events)) indexes.addressEventIndex

variable {paqus events}

theorem Indexes.write_append (first second : Entries) (indexes : Indexes) :
    indexes.write paqus events (first.append second) =
      (indexes.write paqus events first).write paqus events second := by
  simp only [write, Entries.append, List.map_append, List.filterMap_append, List.flatMap_append, writeAll_append]

variable {block : Block} {hash : BlockHash}

theorem Paqus.blockDigest_eq (h : paqus.blockHash block = .ok hash) : paqus.blockDigest block = hash := by
  simp [blockDigest, h, Except.toOption]

theorem Paqus.transactionDigest_eq {transaction : SignedProtocolTransaction} {hash : TransactionHash}
    (h : paqus.codec.transactionHash transaction = .ok hash) : paqus.transactionDigest transaction = hash := by
  simp [transactionDigest, h, Except.toOption]

variable {event : ProtocolEvent} {id : Hash}

theorem EventApi.digest_eq (h : events.id event = .ok id) : events.digest event = id := by
  simp [digest, h, Except.toOption]

section Steps

variable {indexes next : Indexes}

theorem indexTransaction_eq {transaction : SignedProtocolTransaction} {txHash : TransactionHash} {index : Nat}
    (hhash : paqus.blockHash block = .ok hash) (htx : paqus.codec.transactionHash transaction = .ok txHash) :
    Indexes.indexTransaction paqus events block hash index transaction txHash indexes =
      indexes.write paqus events (.ofTransactions paqus events block [(transaction, index)]) := by
  simp only [Indexes.indexTransaction, Indexes.write, Entries.ofTransactions, transactionEntry,
    addressEntries, locationOf, addressLocationOf, Paqus.blockDigest_eq hhash,
    Paqus.transactionDigest_eq htx, List.map_cons, List.map_nil, List.flatMap_cons, List.flatMap_nil,
    List.append_nil, List.filterMap_nil, writeAll, List.foldl_cons, List.foldl_nil, List.foldl_map]

theorem indexTransactions_eq_ok (hhash : paqus.blockHash block = .ok hash)
    {transactions : List SignedProtocolTransaction} {index : Nat}
    (h : Indexes.indexTransactions paqus events block hash index transactions indexes = .ok next) :
    next = indexes.write paqus events (.ofTransactions paqus events block (transactions.zipIdx index)) ∧
      ∀ transaction ∈ transactions,
        paqus.codec.transactionHash transaction = .ok (paqus.transactionDigest transaction) := by
  induction transactions generalizing index indexes with
  | nil =>
    cases h
    exact ⟨rfl, by simp⟩
  | cons transaction rest ih =>
    simp only [Indexes.indexTransactions, except_bind_eq_ok, mapError_eq_ok] at h
    obtain ⟨_, _, txHash, htx, hrest⟩ := h
    obtain ⟨hnext, hhashed⟩ := ih hrest
    have hfirst := @indexTransaction_eq F paqus events block hash indexes transaction txHash index hhash htx
    have hsplit : Entries.ofTransactions paqus events block ((transaction :: rest).zipIdx index) =
        (Entries.ofTransactions paqus events block [(transaction, index)]).append
          (.ofTransactions paqus events block (rest.zipIdx (index + 1))) := by
      simp [Entries.ofTransactions, Entries.append, List.zipIdx_cons]
    refine ⟨by rw [hsplit, Indexes.write_append, ← hfirst]; exact hnext, fun other hother => ?_⟩
    rcases List.mem_cons.mp hother with rfl | hmem
    · rw [Paqus.transactionDigest_eq htx]
      exact htx
    · exact hhashed other hmem

theorem indexMinerBlock_eq_ok (h : indexes.indexMinerBlock paqus events block = .ok next) :
    next = indexes.write paqus events ⟨[], [], minerEntries paqus events block, []⟩ := by
  unfold Indexes.indexMinerBlock at h
  unfold minerEntries
  split at h
  next hnone =>
    cases h
    rw [if_pos hnone]
    rfl
  next hsome =>
    simp only [except_bind_eq_ok, mapError_eq_ok] at h
    obtain ⟨hash, hhash, hnext⟩ := h
    cases hnext
    rw [if_neg hsome, Paqus.blockDigest_eq hhash]
    rfl

theorem indexEvent_eq (hid : events.id event = .ok id) :
    indexes.indexEvent paqus events event id = indexes.write paqus events ⟨[], [], [], [event]⟩ := by
  cases htx : event.transactionHash <;>
    simp only [Indexes.indexEvent, Indexes.write, eventEntry, blockEventEntry, transactionEventEntry,
      addressEventEntries, EventApi.digest_eq hid, htx, List.map_cons, List.map_nil, List.flatMap_cons,
      List.flatMap_nil, List.append_nil, List.filterMap_cons, List.filterMap_nil, Option.map_none,
      Option.map_some, writeAll, List.foldl_cons, List.foldl_nil, List.foldl_map]

theorem indexProtocolEvents_eq_ok {recorded : List ProtocolEvent}
    (h : indexes.indexProtocolEvents paqus events recorded = .ok next) :
    next = indexes.write paqus events ⟨[], [], [], recorded⟩ ∧
      ∀ event ∈ recorded, events.validate event = true ∧ events.id event = .ok (events.digest event) := by
  induction recorded generalizing indexes with
  | nil =>
    cases h
    exact ⟨rfl, by simp⟩
  | cons event rest ih =>
    simp only [Indexes.indexProtocolEvents, except_bind_eq_ok, mapError_eq_ok, check_eq_ok] at h
    obtain ⟨_, hvalid, id, hid, hrest⟩ := h
    obtain ⟨hnext, hchecked⟩ := ih hrest
    have hsplit : (⟨[], [], [], event :: rest⟩ : Entries) =
        (⟨[], [], [], [event]⟩ : Entries).append ⟨[], [], [], rest⟩ := rfl
    refine ⟨by rw [hsplit, Indexes.write_append, ← indexEvent_eq hid]; exact hnext, fun other hother => ?_⟩
    rcases List.mem_cons.mp hother with rfl | hmem
    · exact ⟨hvalid, by rw [EventApi.digest_eq hid]; exact hid⟩
    · exact hchecked other hmem

end Steps

/-- The block has a hash and so have its transactions, which 32 bits can count, and its events are valid
and have ids. -/
structure Indexable (paqus : Paqus F) (events : EventApi) (ledger : Ledger) (block : Block) : Prop where
  count : block.transactions.length ≤ u32Max + 1
  hashed : paqus.blockHash block = .ok (paqus.blockDigest block)
  transactions : ∀ transaction ∈ block.transactions,
    paqus.codec.transactionHash transaction = .ok (paqus.transactionDigest transaction)
  events : ∀ event ∈ ledger.eventsForBlock (paqus.blockDigest block),
    events.validate event = true ∧ events.id event = .ok (events.digest event)

variable {next : Indexes} {ledger : Ledger} {indexes : Indexes}

theorem indexBlock_eq_ok (hhash : paqus.blockHash block = .ok hash)
    (h : indexes.indexBlock paqus events ledger block hash = .ok next) :
    next = indexes.write paqus events (.ofBlock paqus events ledger block) ∧
      Indexable paqus events ledger block := by
  have hdigest := Paqus.blockDigest_eq hhash
  have hcount := Indexes.indexBlock_count h
  simp only [Indexes.indexBlock, Indexes.indexBlockTransactions, except_bind_eq_ok, mapError_eq_ok] at h
  obtain ⟨afterTransactions, ⟨hash', hhash', htransactions⟩, afterMiner, hminer, hevents⟩ := h
  cases hhash.symm.trans hhash'
  obtain ⟨rfl, htx⟩ := indexTransactions_eq_ok hhash htransactions
  cases indexMinerBlock_eq_ok hminer
  obtain ⟨rfl, hchecked⟩ := indexProtocolEvents_eq_ok hevents
  have hsplit : Entries.ofBlock paqus events ledger block =
      ((Entries.ofTransactions paqus events block block.transactions.zipIdx).append
        ⟨[], [], minerEntries paqus events block, []⟩).append
          ⟨[], [], [], ledger.eventsForBlock hash⟩ := by
    simp [Entries.ofBlock, Entries.ofTransactions, Entries.append, hdigest]
  rw [hsplit, Indexes.write_append, Indexes.write_append]
  exact ⟨rfl, hcount, by rw [hdigest]; exact hhash, htx, by rw [hdigest]; exact hchecked⟩

theorem indexChain_eq_ok {blocks : List Block} (h : Indexes.indexChain paqus events ledger blocks indexes = .ok next) :
    next = indexes.write paqus events (.ofChain paqus events ledger blocks) ∧
      ∀ block ∈ blocks, Indexable paqus events ledger block := by
  induction blocks generalizing indexes with
  | nil =>
    cases h
    exact ⟨rfl, by simp⟩
  | cons block rest ih =>
    simp only [Indexes.indexChain, except_bind_eq_ok, mapError_eq_ok] at h
    obtain ⟨hash, hhash, middle, hblock, hrest⟩ := h
    obtain ⟨rfl, hindexable⟩ := indexBlock_eq_ok hhash hblock
    obtain ⟨hnext, hall⟩ := ih hrest
    have hsplit : Entries.ofChain paqus events ledger (block :: rest) =
        (Entries.ofBlock paqus events ledger block).append (.ofChain paqus events ledger rest) := rfl
    refine ⟨by rw [hsplit, Indexes.write_append]; exact hnext, fun other hother => ?_⟩
    rcases List.mem_cons.mp hother with rfl | hmem
    · exact hindexable
    · exact hall other hmem

variable (paqus events) {b a size : Nat} {right left : ProtocolEvent}

def Ledger.storedEvents (ledger : Ledger) : List ProtocolEvent :=
  ledger.storedBlocks.flatMap fun block => ledger.eventsForBlock (paqus.blockDigest block)

/-- The numbers of an event have the sizes of the source's types. -/
@[mk_iff]
structure ProtocolEvent.Sized (event : ProtocolEvent) : Prop where
  height : event.blockHeight ≤ u64Max
  index : event.eventIndex ≤ u32Max
  blockHash : event.blockHash < 256 ^ paqus.codec.hashSize
  transactionHash : ∀ hash ∈ event.transactionHash, hash < 256 ^ paqus.codec.hashSize
  addresses : ∀ address ∈ eventAddresses event.kind, address < 256 ^ events.addressSize
  id : events.digest event < 256 ^ paqus.codec.hashSize

/-- The numbers of a ledger have the sizes of the source's types. -/
@[mk_iff]
structure Ledger.Sized (ledger : Ledger) : Prop where
  height : ∀ block ∈ ledger.storedBlocks, block.height ≤ u64Max
  blockHash : ∀ block ∈ ledger.storedBlocks, paqus.blockDigest block < 256 ^ paqus.codec.hashSize
  miner : ∀ block ∈ ledger.storedBlocks, paqus.rules.minerAddress block < 256 ^ events.addressSize
  transactionHash : ∀ block ∈ ledger.storedBlocks, ∀ transaction ∈ block.transactions,
    paqus.transactionDigest transaction < 256 ^ paqus.codec.hashSize
  addresses : ∀ block ∈ ledger.storedBlocks, ∀ transaction ∈ block.transactions,
    ∀ role ∈ transactionAddresses transaction, role.1 < 256 ^ events.addressSize
  events : ∀ event ∈ ledger.storedEvents paqus, event.Sized paqus events

/-- Each transaction and each block stands in the chain once, events carry their places, and hashes do not
collide. -/
@[mk_iff]
structure Ledger.Unambiguous (ledger : Ledger) : Prop where
  keyed : ∀ (height : Nat) (block : Block), ledger.chain.blocks[height]? = some block → block.height = height
  blockHash : ∀ left ∈ ledger.storedBlocks, ∀ right ∈ ledger.storedBlocks,
    paqus.blockDigest left = paqus.blockDigest right → left = right
  once : ∀ left ∈ ledger.storedBlocks, ∀ right ∈ ledger.storedBlocks, ∀ (i j : Nat) transaction other,
    left.transactions[i]? = some transaction → right.transactions[j]? = some other →
      paqus.transactionDigest transaction = paqus.transactionDigest other → left = right ∧ i = j
  recorded : ∀ block ∈ ledger.storedBlocks, ∀ event ∈ ledger.eventsForBlock (paqus.blockDigest block),
    event.blockHash = paqus.blockDigest block ∧ event.blockHeight = block.height ∧
      ∀ hash ∈ event.transactionHash, ∃ transaction ∈ block.transactions, paqus.transactionDigest transaction = hash
  eventIndex : ∀ block ∈ ledger.storedBlocks,
    ((ledger.eventsForBlock (paqus.blockDigest block)).map ProtocolEvent.eventIndex).Nodup
  eventId : ∀ left ∈ ledger.storedEvents paqus, ∀ right ∈ ledger.storedEvents paqus,
    events.digest left = events.digest right → left = right

variable {paqus events}

theorem bigEndian_inj (ha : a < 256 ^ size) (hb : b < 256 ^ size)
    (h : bigEndian size a = bigEndian size b) : a = b := by
  rw [← fromBigEndian_bigEndian ha, h, fromBigEndian_bigEndian hb]

theorem heightKey_inj (ha : a ≤ u64Max) (hb : b ≤ u64Max) (h : heightKey a = heightKey b) : a = b :=
  bigEndian_inj (Nat.lt_of_le_of_lt ha (by decide)) (Nat.lt_of_le_of_lt hb (by decide)) h

theorem indexKey_inj (ha : a ≤ u32Max) (hb : b ≤ u32Max) (h : bigEndian 4 a = bigEndian 4 b) : a = b :=
  bigEndian_inj (Nat.lt_of_le_of_lt ha (by decide)) (Nat.lt_of_le_of_lt hb (by decide)) h

theorem starts_append_iff {start first rest : List UInt8} (h : start.length = first.length) :
    start <+: first ++ rest ↔ start = first := by
  rw [List.prefix_iff_eq_take, h, List.take_left]

theorem starts_bigEndian_iff (ha : a < 256 ^ size) (hb : b < 256 ^ size)
    {rest : List UInt8} : bigEndian size a <+: bigEndian size b ++ rest ↔ a = b := by
  rw [starts_append_iff (by simp)]
  exact ⟨bigEndian_inj ha hb, fun h => h ▸ rfl⟩

theorem bigEndian_append_inj (ha : a < 256 ^ size) (hb : b < 256 ^ size)
    {left right : List UInt8} (h : bigEndian size a ++ left = bigEndian size b ++ right) :
    a = b ∧ left = right := by
  obtain ⟨hfirst, hrest⟩ := List.append_inj h (by simp)
  exact ⟨bigEndian_inj ha hb hfirst, hrest⟩

section Chain

variable (h : ledger.Unambiguous paqus events)

include h

theorem Ledger.Unambiguous.at_height (hblock : block ∈ ledger.storedBlocks) :
    ledger.chain.blocks[block.height]? = some block := by
  obtain ⟨height, hfound⟩ := Ledger.mem_storedBlocks.mp hblock
  rw [h.keyed height block hfound]
  exact hfound

theorem Ledger.Unambiguous.height_inj {left right : Block} (hleft : left ∈ ledger.storedBlocks)
    (hright : right ∈ ledger.storedBlocks) (heq : left.height = right.height) : left = right := by
  have hfound := h.at_height hleft
  rw [heq, h.at_height hright] at hfound
  exact (Option.some.inj hfound).symm

theorem Ledger.Unambiguous.sorted : ledger.storedBlocks.Pairwise fun left right => left.height < right.height := by
  unfold Ledger.storedBlocks
  rw [List.pairwise_map]
  refine List.Pairwise.imp_of_mem ?_ ExtTreeMap.ordered_keys_toList
  rintro ⟨height, block⟩ ⟨height', block'⟩ hmem hmem' hlt
  rw [h.keyed height block (ExtTreeMap.mem_toList_iff_getElem?_eq_some.mp hmem),
    h.keyed height' block' (ExtTreeMap.mem_toList_iff_getElem?_eq_some.mp hmem')]
  exact compare_lt_iff_lt.mp hlt

theorem Ledger.Unambiguous.event_eq (hblock : block ∈ ledger.storedBlocks)
    (hleft : left ∈ ledger.eventsForBlock (paqus.blockDigest block))
    (hright : right ∈ ledger.eventsForBlock (paqus.blockDigest block))
    (hindex : left.eventIndex = right.eventIndex) : left = right :=
  List.inj_on_of_nodup_map (h.eventIndex block hblock) hleft hright hindex

section

variable (hleft : left ∈ ledger.storedEvents paqus) (hright : right ∈ ledger.storedEvents paqus)

include hleft hright

theorem Ledger.Unambiguous.event_at_height (hheight : left.blockHeight = right.blockHeight)
    (hindex : left.eventIndex = right.eventIndex) : left = right := by
  obtain ⟨block, hblock, hleft⟩ := List.mem_flatMap.mp hleft
  obtain ⟨other, hother, hright⟩ := List.mem_flatMap.mp hright
  have hheights := (h.recorded block hblock left hleft).2.1.symm.trans
    (hheight.trans (h.recorded other hother right hright).2.1)
  cases h.height_inj hblock hother hheights
  exact h.event_eq hblock hleft hright hindex

theorem Ledger.Unambiguous.event_in_block
    (hhash : left.blockHash = right.blockHash) (hindex : left.eventIndex = right.eventIndex) : left = right := by
  obtain ⟨block, hblock, hleft⟩ := List.mem_flatMap.mp hleft
  obtain ⟨other, hother, hright⟩ := List.mem_flatMap.mp hright
  have hhashes := (h.recorded block hblock left hleft).1.symm.trans
    (hhash.trans (h.recorded other hother right hright).1)
  cases h.blockHash block hblock other hother hhashes
  exact h.event_eq hblock hleft hright hindex

theorem Ledger.Unambiguous.event_of_transaction {hash : TransactionHash} (htx : left.transactionHash = some hash)
    (htx' : right.transactionHash = some hash) (hindex : left.eventIndex = right.eventIndex) : left = right := by
  obtain ⟨block, hblock, hleft⟩ := List.mem_flatMap.mp hleft
  obtain ⟨other, hother, hright⟩ := List.mem_flatMap.mp hright
  obtain ⟨transaction, htransaction, hdigest⟩ := (h.recorded block hblock left hleft).2.2 hash htx
  obtain ⟨transaction', htransaction', hdigest'⟩ := (h.recorded other hother right hright).2.2 hash htx'
  obtain ⟨i, hi⟩ := List.mem_iff_getElem?.mp htransaction
  obtain ⟨j, hj⟩ := List.mem_iff_getElem?.mp htransaction'
  cases (h.once block hblock other hother i j _ _ hi hj (hdigest.trans hdigest'.symm)).1
  exact h.event_eq hblock hleft hright hindex

end

theorem Ledger.Unambiguous.nodup_events : (ledger.storedEvents paqus).Nodup := by
  refine List.nodup_flatMap.mpr ⟨fun block hblock => (h.eventIndex block hblock).of_map _, ?_⟩
  refine List.Pairwise.imp_of_mem (fun {left right} hleft hright hlt => ?_) h.sorted
  intro event hevent hevent'
  have hheight := (h.recorded left hleft event hevent).2.1
  have hheight' := (h.recorded right hright event hevent').2.1
  omega

end Chain

instance ProtocolEvent.Sized.decidable (event : ProtocolEvent) : Decidable (event.Sized paqus events) :=
  decidable_of_iff' _ (ProtocolEvent.sized_iff ..)

instance Ledger.Sized.decidable (ledger : Ledger) : Decidable (ledger.Sized paqus events) :=
  decidable_of_iff' _ (Ledger.sized_iff ..)

instance Ledger.Unambiguous.decidable (ledger : Ledger) : Decidable (ledger.Unambiguous paqus events) :=
  haveI : Decidable (∀ (height : Nat) (block : Block), ledger.chain.blocks[height]? = some block →
      block.height = height) :=
    decidable_of_iff (∀ entry ∈ ledger.chain.blocks.toList, entry.2.height = entry.1)
      ⟨fun h height block hfound => h (height, block) (ExtTreeMap.mem_toList_iff_getElem?_eq_some.mpr hfound),
        fun h _ hentry => h _ _ (ExtTreeMap.mem_toList_iff_getElem?_eq_some.mp hentry)⟩
  haveI (left right : Block) : Decidable (∀ (i j : Nat) transaction other, left.transactions[i]? = some transaction →
      right.transactions[j]? = some other →
        paqus.transactionDigest transaction = paqus.transactionDigest other → left = right ∧ i = j) :=
    decidable_of_iff (∀ entry ∈ left.transactions.zipIdx, ∀ other ∈ right.transactions.zipIdx,
        paqus.transactionDigest entry.1 = paqus.transactionDigest other.1 → left = right ∧ entry.2 = other.2)
      ⟨fun h i j transaction other hat hat' => h (transaction, i) (List.mem_zipIdx_iff_getElem?.mpr hat) (other, j)
          (List.mem_zipIdx_iff_getElem?.mpr hat'),
        fun h _ hentry _ hother => h _ _ _ _ (List.mem_zipIdx_iff_getElem?.mp hentry)
          (List.mem_zipIdx_iff_getElem?.mp hother)⟩
  decidable_of_iff' _ (Ledger.unambiguous_iff ..)

end PaqusNetwork
