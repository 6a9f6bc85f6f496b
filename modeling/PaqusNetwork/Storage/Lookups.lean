import PaqusNetwork.Storage.Entries

namespace PaqusNetwork

open Effect Numeric ByteTable

variable {F : Type} {paqus : Paqus F} {events : EventApi} {ledger : Ledger} {indexes : Indexes}
  {address : Address} {key : List UInt8} (h : ledger.Unambiguous paqus events)
  (hsized : ledger.Sized paqus events) (hindexes : ledger.indexes paqus events = .ok indexes)

theorem Ledger.indexes_eq (h : ledger.indexes paqus events = .ok indexes) :
    indexes = Indexes.empty.write paqus events (.ofChain paqus events ledger ledger.storedBlocks) ∧
      ∀ block ∈ ledger.storedBlocks, Indexable paqus events ledger block :=
  indexChain_eq_ok h

section Transactions

include h hsized hindexes

theorem loadTransactionLocation_eq_some {hash : TransactionHash} (hhash : hash < 256 ^ paqus.codec.hashSize)
    {location : TransactionLocation} :
    indexes.loadTransactionLocation paqus hash = some location ↔
      ∃ block ∈ ledger.storedBlocks, ∃ (index : Nat) (transaction : SignedProtocolTransaction),
        block.transactions[index]? = some transaction ∧ paqus.transactionDigest transaction = hash ∧
          location = locationOf paqus block transaction index := by
  obtain ⟨rfl, _⟩ := Ledger.indexes_eq hindexes
  have hwrites : ∀ {key location},
      (key, location) ∈ (Entries.ofChain paqus events ledger ledger.storedBlocks).transactions ↔
        ∃ block ∈ ledger.storedBlocks, ∃ (transaction : SignedProtocolTransaction) (index : Nat),
          block.transactions[index]? = some transaction ∧ hashKey paqus (paqus.transactionDigest transaction) = key ∧
            locationOf paqus block transaction index = location := by
    simp only [Entries.ofChain, Entries.ofBlock, List.mem_flatMap, List.mem_map, Prod.exists,
      List.mem_zipIdx_iff_getElem?, transactionEntry, Prod.mk.injEq, implies_true]
  have hfunctional : Functional (Entries.ofChain paqus events ledger ledger.storedBlocks).transactions := by
    rintro ⟨key, location⟩ hleft ⟨key', location'⟩ hright heq
    obtain ⟨block, hblock, transaction, index, hat, rfl, rfl⟩ := hwrites.mp hleft
    obtain ⟨other, hother, transaction', index', hat', rfl, rfl⟩ := hwrites.mp hright
    have hdigest := bigEndian_inj (hsized.transactionHash block hblock transaction (List.mem_of_getElem? hat))
      (hsized.transactionHash other hother transaction' (List.mem_of_getElem? hat')) heq
    obtain ⟨rfl, rfl⟩ := h.once block hblock other hother index index' _ _ hat hat' hdigest
    cases hat.symm.trans hat'
    rfl
  unfold Indexes.loadTransactionLocation Indexes.write Indexes.empty
  rw [getElem?_writeAll hfunctional, hwrites]
  constructor
  · rintro ⟨block, hblock, transaction, index, hat, hkey, rfl⟩
    refine ⟨block, hblock, index, transaction, hat, ?_, rfl⟩
    exact bigEndian_inj (hsized.transactionHash block hblock transaction (List.mem_of_getElem? hat)) hhash hkey
  · rintro ⟨block, hblock, index, transaction, hat, rfl, rfl⟩
    exact ⟨block, hblock, transaction, index, hat, rfl, rfl⟩

end Transactions

/-- Whether an address takes part in a transaction, and if so whether as the signer. -/
def roleOf (address : Address) (transaction : SignedProtocolTransaction) : Option Bool :=
  if transaction.signer = address then some true
  else if address ∈ transactionRecipients transaction then some false
  else none

variable (paqus) in
/-- For each transaction of the chain in which the address takes part, its location and role. -/
def Ledger.addressHistory (ledger : Ledger) (address : Address) : List AddressTransactionLocation :=
  ledger.storedBlocks.flatMap fun block => block.transactions.zipIdx.filterMap fun entry =>
    (roleOf address entry.1).map fun sent => addressLocationOf paqus block entry.1 entry.2 sent

variable (paqus) in
def Ledger.minedBy (ledger : Ledger) (address : Address) : List MinerBlockLocation :=
  (ledger.storedBlocks.filter fun block =>
    block.body.coinbase.isSome && paqus.rules.minerAddress block == address).map
      fun block => ⟨block.height, paqus.blockDigest block⟩

theorem mem_transactionAddresses {sent : Bool} {transaction : SignedProtocolTransaction} :
    (address, sent) ∈ transactionAddresses transaction ↔ roleOf address transaction = some sent := by
  unfold transactionAddresses roleOf
  simp only [List.mem_cons, Prod.mk.injEq, List.mem_map, List.mem_filter, bne_iff_ne, ne_eq]
  by_cases hsigner : transaction.signer = address
  · simp only [hsigner, if_true, Option.some.injEq, true_and]
    constructor
    · rintro (rfl | ⟨other, ⟨_, hne⟩, rfl, _⟩)
      · rfl
      · exact absurd rfl hne
    · exact fun h => .inl h.symm
  · rw [if_neg hsigner]
    constructor
    · rintro (⟨rfl, _⟩ | ⟨other, ⟨hmem, _⟩, rfl, rfl⟩)
      · exact absurd rfl hsigner
      · rw [if_pos hmem]
    · intro hrole
      split at hrole
      next hmem =>
        cases hrole
        exact .inr ⟨address, ⟨hmem, fun heq => hsigner heq.symm⟩, rfl, rfl⟩
      next => cases hrole

instance : Std.Total Indexes.addressLocationLe where
  total left right := by
    unfold Indexes.addressLocationLe
    cases left.sent <;> cases right.sent <;> simp <;> omega

instance : IsTrans AddressTransactionLocation Indexes.addressLocationLe where
  trans left middle right h h' := by
    unfold Indexes.addressLocationLe at h h' ⊢
    revert h h'
    cases left.sent <;> cases middle.sent <;> cases right.sent <;> simp <;> omega

theorem addressLocationLe_of_earlier {left right : AddressTransactionLocation}
    (h : left.blockHeight < right.blockHeight ∨ (left.blockHeight = right.blockHeight ∧ left.txIndex < right.txIndex)) :
    Indexes.addressLocationLe left right ∧ ¬Indexes.addressLocationLe right left := by
  unfold Indexes.addressLocationLe
  rcases h with hheight | ⟨hheight, hindex⟩
  · exact ⟨.inl hheight, by omega⟩
  · exact ⟨.inr ⟨hheight, .inl hindex⟩, by omega⟩

/-- What is taken of the transactions of a chain, block by block, comes in the order of height and
index. -/
theorem Ledger.Unambiguous.pairwise_history (h : ledger.Unambiguous paqus events) {β : Type}
    {f : Block → SignedProtocolTransaction × Nat → Option β} {R : β → β → Prop}
    (hblocks : ∀ left right, left.height < right.height → ∀ entry other x y, f left entry = some x →
      f right other = some y → R x y)
    (hindexes : ∀ block entry other x y, entry.2 < other.2 → f block entry = some x → f block other = some y → R x y) :
    (ledger.storedBlocks.flatMap fun block => block.transactions.zipIdx.filterMap (f block)).Pairwise R := by
  rw [List.pairwise_flatMap]
  constructor
  · intro block _
    have hindexed : block.transactions.zipIdx.Pairwise fun entry other => entry.2 < other.2 := by
      rw [← List.pairwise_map, List.zipIdx_map_snd]
      exact List.pairwise_lt_range'
    refine List.Pairwise.filterMap _ (fun entry other hlt x hx y hy => ?_) hindexed
    exact hindexes block entry other x y hlt hx hy
  · refine h.sorted.imp fun {left right} hlt x hx y hy => ?_
    obtain ⟨entry, _, hentry⟩ := List.mem_filterMap.mp hx
    obtain ⟨other, _, hother⟩ := List.mem_filterMap.mp hy
    exact hblocks left right hlt entry other x y hentry hother

theorem mem_addresses {location : AddressTransactionLocation} :
    (key, location) ∈ (Entries.ofChain paqus events ledger ledger.storedBlocks).addresses ↔
      ∃ block ∈ ledger.storedBlocks, ∃ (transaction : SignedProtocolTransaction) (index : Nat),
        block.transactions[index]? = some transaction ∧ ∃ address sent, roleOf address transaction = some sent ∧
          addressTxKey events address block.height index sent = key ∧
          addressLocationOf paqus block transaction index sent = location := by
  simp only [Entries.ofChain, Entries.ofBlock, addressEntries, List.mem_flatMap, List.mem_map, Prod.exists,
    List.mem_zipIdx_iff_getElem?, mem_transactionAddresses, Prod.mk.injEq]

theorem Ledger.Unambiguous.history_order (h : ledger.Unambiguous paqus events) (address : Address) :
    (ledger.addressHistory paqus address).Pairwise fun left right =>
      left.blockHeight < right.blockHeight ∨
        (left.blockHeight = right.blockHeight ∧ left.txIndex < right.txIndex) := by
  refine h.pairwise_history (fun left right hlt entry other x y hx hy => ?_) (fun block entry other x y hlt hx hy => ?_)
  · obtain ⟨_, _, rfl⟩ := Option.map_eq_some_iff.mp hx
    obtain ⟨_, _, rfl⟩ := Option.map_eq_some_iff.mp hy
    exact .inl hlt
  · obtain ⟨_, _, rfl⟩ := Option.map_eq_some_iff.mp hx
    obtain ⟨_, _, rfl⟩ := Option.map_eq_some_iff.mp hy
    exact .inr ⟨rfl, hlt⟩

theorem Ledger.Unambiguous.mined_order (h : ledger.Unambiguous paqus events) (address : Address) :
    (ledger.minedBy paqus address).Pairwise fun left right => left.blockHeight < right.blockHeight := by
  unfold Ledger.minedBy
  rw [List.pairwise_map]
  exact h.sorted.filter _

section Addresses

include h hsized hindexes

theorem addresses_functional : Functional (Entries.ofChain paqus events ledger ledger.storedBlocks).addresses := by
  obtain ⟨_, hindexable⟩ := Ledger.indexes_eq hindexes
  rintro ⟨key, location⟩ hleft ⟨key', location'⟩ hright heq
  obtain ⟨block, hblock, transaction, index, hat, address, sent, hrole, rfl, rfl⟩ := mem_addresses.mp hleft
  obtain ⟨other, hother, transaction', index', hat', address', sent', hrole', rfl, rfl⟩ := mem_addresses.mp hright
  have haddress := hsized.addresses block hblock transaction (List.mem_of_getElem? hat) (address, sent)
    (mem_transactionAddresses.mpr hrole)
  have haddress' := hsized.addresses other hother transaction' (List.mem_of_getElem? hat') (address', sent')
    (mem_transactionAddresses.mpr hrole')
  have hlt := (hindexable block hblock).count
  have hlt' := (hindexable other hother).count
  obtain ⟨hi, _⟩ := List.getElem?_eq_some_iff.mp hat
  obtain ⟨hj, _⟩ := List.getElem?_eq_some_iff.mp hat'
  obtain ⟨_, hrest⟩ := bigEndian_append_inj haddress haddress' heq
  obtain ⟨hheights, hrest⟩ := List.append_inj hrest (by simp [heightKey])
  obtain ⟨hpositions, hroles⟩ := List.append_inj hrest (by simp)
  cases h.height_inj hblock hother (heightKey_inj (hsized.height block hblock) (hsized.height other hother) hheights)
  cases indexKey_inj (by omega) (by omega) hpositions
  cases hat.symm.trans hat'
  have hsent : sent = sent' := by
    cases sent <;> cases sent' <;> simp_all
  rw [hsent]

/-- The lookup of an address finds each transaction in which it takes part once, in the order of the
chain. -/
theorem loadAddressTransactionLocations_eq (haddress : address < 256 ^ events.addressSize) :
    indexes.loadAddressTransactionLocations events address = ledger.addressHistory paqus address := by
  let expected : List (List UInt8 × AddressTransactionLocation) :=
    ledger.storedBlocks.flatMap fun block => block.transactions.zipIdx.filterMap fun entry =>
      (roleOf address entry.1).map fun sent => (addressTxKey events address block.height entry.2 sent,
        addressLocationOf paqus block entry.1 entry.2 sent)
  have hvalues : expected.map Prod.snd = ledger.addressHistory paqus address := by
    simp only [expected, Ledger.addressHistory, List.map_flatMap, List.map_filterMap, Option.map_map, Function.comp_def]
  have hlater : expected.Pairwise fun left right =>
      Indexes.addressLocationLe left.2 right.2 ∧ ¬Indexes.addressLocationLe right.2 left.2 := by
    have horder := h.history_order address
    rw [← hvalues, List.pairwise_map] at horder
    exact horder.imp addressLocationLe_of_earlier
  have hmem : ∀ entry, entry ∈ expected ↔
      entry ∈ (Entries.ofChain paqus events ledger ledger.storedBlocks).addresses ∧
        addressKey events address <+: entry.1 := by
    rintro ⟨key, location⟩
    rw [mem_addresses]
    simp only [expected, List.mem_flatMap, List.mem_filterMap, Prod.exists, List.mem_zipIdx_iff_getElem?,
      Option.map_eq_some_iff, Prod.mk.injEq]
    constructor
    · rintro ⟨block, hblock, transaction, index, hat, sent, hrole, rfl, rfl⟩
      exact ⟨⟨block, hblock, transaction, index, hat, address, sent, hrole, rfl, rfl⟩, List.prefix_append _ _⟩
    · rintro ⟨⟨block, hblock, transaction, index, hat, other, sent, hrole, rfl, rfl⟩, hstarts⟩
      have hother := hsized.addresses block hblock transaction (List.mem_of_getElem? hat) (other, sent)
        (mem_transactionAddresses.mpr hrole)
      cases (starts_bigEndian_iff haddress hother).mp hstarts
      exact ⟨block, hblock, transaction, index, hat, sent, hrole, rfl, rfl⟩
  have hfunctional := addresses_functional h hsized hindexes
  obtain ⟨rfl, _⟩ := Ledger.indexes_eq hindexes
  exact (insertionSort_scan hfunctional hmem hlater).trans hvalues

end Addresses

section Miners

omit hindexes in
theorem mem_miners {location : MinerBlockLocation} :
    (key, location) ∈ (Entries.ofChain paqus events ledger ledger.storedBlocks).miners ↔
      ∃ block ∈ ledger.storedBlocks, block.body.coinbase.isSome = true ∧
        minerBlockKey events (paqus.rules.minerAddress block) block.height = key ∧
        (⟨block.height, paqus.blockDigest block⟩ : MinerBlockLocation) = location := by
  simp only [Entries.ofChain, List.mem_flatMap, minerEntries]
  constructor
  · rintro ⟨block, hblock, hentry⟩
    split at hentry
    · cases hentry
    next hsome =>
      cases List.mem_singleton.mp hentry
      exact ⟨block, hblock, Option.isSome_iff_ne_none.mpr (by simpa using hsome), rfl, rfl⟩
  · rintro ⟨block, hblock, hsome, rfl, rfl⟩
    refine ⟨block, hblock, ?_⟩
    rw [if_neg (by simpa using Option.isSome_iff_ne_none.mp hsome)]
    exact List.mem_singleton.mpr rfl

include h hsized

theorem miners_functional : Functional (Entries.ofChain paqus events ledger ledger.storedBlocks).miners := by
  rintro ⟨key, location⟩ hleft ⟨key', location'⟩ hright heq
  obtain ⟨block, hblock, _, rfl, rfl⟩ := mem_miners.mp hleft
  obtain ⟨other, hother, _, rfl, rfl⟩ := mem_miners.mp hright
  obtain ⟨_, hheights⟩ := bigEndian_append_inj (hsized.miner block hblock) (hsized.miner other hother) heq
  cases h.height_inj hblock hother (heightKey_inj (hsized.height block hblock) (hsized.height other hother) hheights)
  rfl

include hindexes

theorem loadMinerBlockLocations_eq (haddress : address < 256 ^ events.addressSize) :
    indexes.loadMinerBlockLocations events address = ledger.minedBy paqus address := by
  let mined := ledger.storedBlocks.filter fun block =>
    block.body.coinbase.isSome && paqus.rules.minerAddress block == address
  let expected : List (List UInt8 × MinerBlockLocation) :=
    mined.map fun block => (minerBlockKey events address block.height, ⟨block.height, paqus.blockDigest block⟩)
  have hvalues : expected.map Prod.snd = ledger.minedBy paqus address := by
    simp only [expected, mined, Ledger.minedBy, List.map_map, Function.comp_def]
  have hlater : expected.Pairwise fun left right => left.2.blockHeight ≤ right.2.blockHeight ∧
      ¬right.2.blockHeight ≤ left.2.blockHeight := by
    have horder := h.mined_order address
    rw [← hvalues, List.pairwise_map] at horder
    exact horder.imp fun hlt => ⟨Nat.le_of_lt hlt, Nat.not_le_of_lt hlt⟩
  have hmem : ∀ entry, entry ∈ expected ↔
      entry ∈ (Entries.ofChain paqus events ledger ledger.storedBlocks).miners ∧
        addressKey events address <+: entry.1 := by
    rintro ⟨key, location⟩
    rw [mem_miners]
    simp only [expected, mined, List.mem_map, List.mem_filter, Bool.and_eq_true, beq_iff_eq, Prod.mk.injEq]
    constructor
    · rintro ⟨block, ⟨hblock, hsome, rfl⟩, rfl, rfl⟩
      exact ⟨⟨block, hblock, hsome, rfl, rfl⟩, List.prefix_append _ _⟩
    · rintro ⟨⟨block, hblock, hsome, rfl, rfl⟩, hstarts⟩
      have hminer := (starts_bigEndian_iff haddress (hsized.miner block (List.mem_map.mpr hblock))).mp hstarts
      exact ⟨block, ⟨hblock, hsome, hminer.symm⟩, by rw [hminer], rfl⟩
  obtain ⟨rfl, _⟩ := Ledger.indexes_eq hindexes
  exact (insertionSort_scan (miners_functional h hsized) hmem hlater).trans hvalues

end Miners

instance : Std.Total Indexes.eventLe where
  total left right := by
    unfold Indexes.eventLe
    omega

instance : IsTrans ProtocolEvent Indexes.eventLe where
  trans left middle right h h' := by
    unfold Indexes.eventLe at h h' ⊢
    omega

variable (paqus) in
def Ledger.eventsWhere (ledger : Ledger) (matching : ProtocolEvent → Bool) : List ProtocolEvent :=
  ((ledger.storedEvents paqus).filter matching).insertionSort Indexes.eventLe

theorem Ledger.Unambiguous.eventLe_antisymm (h : ledger.Unambiguous paqus events) {left right : ProtocolEvent}
    (hleft : left ∈ ledger.storedEvents paqus) (hright : right ∈ ledger.storedEvents paqus)
    (hle : Indexes.eventLe left right) (hge : Indexes.eventLe right left) : left = right := by
  unfold Indexes.eventLe at hle hge
  exact h.event_at_height hleft hright (by omega) (by omega)

theorem Ledger.Unambiguous.eventsWhere_block (h : ledger.Unambiguous paqus events) {block : Block}
    (hblock : block ∈ ledger.storedBlocks) :
    ledger.eventsWhere paqus (fun event => event.blockHash == paqus.blockDigest block) =
      (ledger.eventsForBlock (paqus.blockDigest block)).insertionSort Indexes.eventLe := by
  have hperm : ((ledger.storedEvents paqus).filter fun event => event.blockHash == paqus.blockDigest block).Perm
      (ledger.eventsForBlock (paqus.blockDigest block)) := by
    rw [List.perm_ext_iff_of_nodup (h.nodup_events.filter _) ((h.eventIndex block hblock).of_map _)]
    intro event
    rw [List.mem_filter, beq_iff_eq]
    constructor
    · rintro ⟨hevent, hhash⟩
      obtain ⟨other, hother, hrecorded⟩ := List.mem_flatMap.mp hevent
      rw [(h.recorded other hother event hrecorded).1] at hhash
      rw [← h.blockHash other hother block hblock hhash]
      exact hrecorded
    · intro hrecorded
      exact ⟨List.mem_flatMap.mpr ⟨block, hblock, hrecorded⟩, (h.recorded block hblock event hrecorded).1⟩
  refine Sorting.insertionSort_congr hperm fun left hleft right hright hle hge => ?_
  exact h.eventLe_antisymm (List.mem_filter.mp hleft).1 (List.mem_filter.mp hright).1 hle hge

section Events

include h hsized hindexes

theorem indexedEvent_eq {event : ProtocolEvent} (hevent : event ∈ ledger.storedEvents paqus) :
    indexes.indexedEvent paqus events (events.digest event) = .ok event := by
  obtain ⟨rfl, hindexable⟩ := Ledger.indexes_eq hindexes
  have hfunctional : Functional ((ledger.storedEvents paqus).map (eventEntry paqus events)) := by
    intro left hleft right hright heq
    obtain ⟨first, hfirst, rfl⟩ := List.mem_map.mp hleft
    obtain ⟨second, hsecond, rfl⟩ := List.mem_map.mp hright
    exact h.eventId first hfirst second hsecond
      (bigEndian_inj (hsized.events first hfirst).id (hsized.events second hsecond).id heq)
  have hfound : (writeAll ((ledger.storedEvents paqus).map (eventEntry paqus events)) ∅)[
      hashKey paqus (events.digest event)]? = some event :=
    (getElem?_writeAll hfunctional _ _).mpr (List.mem_map.mpr ⟨event, hevent, rfl⟩)
  obtain ⟨block, hblock, hrecorded⟩ := List.mem_flatMap.mp hevent
  obtain ⟨hvalid, hid⟩ := (hindexable block hblock).events event hrecorded
  have htable : (Indexes.empty.write paqus events
      (.ofChain paqus events ledger ledger.storedBlocks)).eventsById[
        hashKey paqus (events.digest event)]? = some event := hfound
  unfold Indexes.indexedEvent
  rw [htable]
  simp [hvalid, hid, check]

/-- The lookup of a name in a table whose keys start with the names of events and, with them, tell the events
apart finds the events of that name, once each and in order. -/
theorem loadIndexedEvents_eq {names : ProtocolEvent → List Nat} {rest : ProtocolEvent → List UInt8} {width name : Nat}
    (hname : name < 256 ^ width)
    (hwidth : ∀ event ∈ ledger.storedEvents paqus, ∀ other ∈ names event, other < 256 ^ width)
    (hrest : ∀ left ∈ ledger.storedEvents paqus, ∀ right ∈ ledger.storedEvents paqus,
      ∀ name ∈ names left, name ∈ names right → rest left = rest right → left = right) :
    indexes.loadIndexedEvents paqus events (writeAll ((ledger.storedEvents paqus).flatMap fun event =>
      (names event).map fun name => (bigEndian width name ++ rest event, events.digest event)) ∅)
      (bigEndian width name) = .ok (ledger.eventsWhere paqus fun event => decide (name ∈ names event)) := by
  let writes := (ledger.storedEvents paqus).flatMap fun event =>
    (names event).map fun name => (bigEndian width name ++ rest event, events.digest event)
  have hwrites : ∀ {entry}, entry ∈ writes ↔ ∃ event ∈ ledger.storedEvents paqus, ∃ name ∈ names event,
      (bigEndian width name ++ rest event, events.digest event) = entry := by
    simp only [writes, List.mem_flatMap, List.mem_map, implies_true]
  have hfunctional : Functional writes := by
    intro left hleft right hright heq
    obtain ⟨first, hfirst, name, hmem, rfl⟩ := hwrites.mp hleft
    obtain ⟨second, hsecond, name', hmem', rfl⟩ := hwrites.mp hright
    obtain ⟨rfl, hkey⟩ := bigEndian_append_inj (hwidth first hfirst name hmem) (hwidth second hsecond name' hmem') heq
    rw [hrest first hfirst second hsecond name hmem hmem' hkey]
  let found := (ledger.storedEvents paqus).filter fun event => decide (name ∈ names event)
  have hstored : ∀ event ∈ found, event ∈ ledger.storedEvents paqus := fun _ hevent =>
    (List.mem_filter.mp hevent).1
  let expected := found.map fun event => (bigEndian width name ++ rest event, events.digest event)
  have hnodup : expected.Nodup := by
    refine List.Nodup.map_on (fun left hleft right hright heq => ?_) (h.nodup_events.filter _)
    exact h.eventId left (hstored left hleft) right (hstored right hright) (Prod.mk.inj heq).2
  have hmem : ∀ entry, entry ∈ expected ↔ entry ∈ writes ∧ bigEndian width name <+: entry.1 := by
    intro entry
    rw [List.mem_map, hwrites]
    constructor
    · rintro ⟨event, hevent, rfl⟩
      obtain ⟨hmem, hnamed⟩ := List.mem_filter.mp hevent
      exact ⟨⟨event, hmem, name, of_decide_eq_true hnamed, rfl⟩, List.prefix_append _ _⟩
    · rintro ⟨⟨event, hmem, other, hother, rfl⟩, hstarts⟩
      cases (starts_bigEndian_iff hname (hwidth event hmem other hother)).mp hstarts
      exact ⟨event, List.mem_filter.mpr ⟨hmem, decide_eq_true hother⟩, rfl⟩
  have hperm := scan_writeAll_perm hfunctional hmem hnodup
  have hscanned : expected.map Prod.snd = found.map events.digest := by
    simp only [expected, List.map_map, Function.comp_def]
  rw [hscanned] at hperm
  have hlookup : ∀ event ∈ found, indexes.indexedEvent paqus events (events.digest event) = .ok event :=
    fun event hevent => indexedEvent_eq h hsized hindexes (hstored event hevent)
  obtain ⟨result, hresult, hsame⟩ := mapM_perm hperm hlookup
  unfold Indexes.loadIndexedEvents
  rw [hresult]
  refine congrArg Except.ok (Sorting.insertionSort_congr hsame fun left hleft right hright hle hge => ?_)
  have hmatched := fun {event} (hevent : event ∈ result) => hstored event (hsame.mem_iff.mp hevent)
  exact h.eventLe_antisymm (hmatched hleft) (hmatched hright) hle hge

theorem loadBlockEvents_eq {hash : BlockHash} (hhash : hash < 256 ^ paqus.codec.hashSize) :
    indexes.loadBlockEvents paqus events hash =
      .ok (ledger.eventsWhere paqus fun event => event.blockHash == hash) := by
  have hfound := @loadIndexedEvents_eq F paqus events ledger indexes h hsized hindexes
    (fun event => [event.blockHash]) (fun event => bigEndian 4 event.eventIndex) _ _ hhash
    (fun event hevent name hname => List.mem_singleton.mp hname ▸ (hsized.events event hevent).blockHash)
    (fun left hleft right hright name hname hname' hindex => by
      have hblocks := (List.mem_singleton.mp hname).symm.trans (List.mem_singleton.mp hname')
      exact h.event_in_block hleft hright hblocks
        (indexKey_inj (hsized.events left hleft).index (hsized.events right hright).index hindex))
  simp only [List.mem_singleton, eq_comm (a := hash), List.map_cons, List.map_nil, ← List.map_eq_flatMap] at hfound
  obtain ⟨rfl, _⟩ := Ledger.indexes_eq hindexes
  exact hfound

theorem loadTransactionEvents_eq {hash : TransactionHash} (hhash : hash < 256 ^ paqus.codec.hashSize) :
    indexes.loadTransactionEvents paqus events hash =
      .ok (ledger.eventsWhere paqus fun event => event.transactionHash == some hash) := by
  have hfound := @loadIndexedEvents_eq F paqus events ledger indexes h hsized hindexes
    (fun event => event.transactionHash.toList) (fun event => bigEndian 4 event.eventIndex) _ _ hhash
    (fun event hevent name hname => (hsized.events event hevent).transactionHash name (Option.mem_toList.mp hname))
    (fun left hleft right hright name hname hname' hindex => h.event_of_transaction hleft hright
      (Option.mem_toList.mp hname) (Option.mem_toList.mp hname')
      (indexKey_inj (hsized.events left hleft).index (hsized.events right hright).index hindex))
  simp only [Option.mem_toList, ← beq_eq_decide, ← Option.toList_map, ← List.filterMap_eq_flatMap_toList] at hfound
  obtain ⟨rfl, _⟩ := Ledger.indexes_eq hindexes
  exact hfound

theorem loadAddressEvents_eq (haddress : address < 256 ^ events.addressSize) :
    indexes.loadAddressEvents paqus events address =
      .ok (ledger.eventsWhere paqus fun event => decide (address ∈ eventAddresses event.kind)) := by
  have hfound := @loadIndexedEvents_eq F paqus events ledger indexes h hsized hindexes
    (fun event => eventAddresses event.kind)
    (fun event => heightKey event.blockHeight ++ bigEndian 4 event.eventIndex) _ _ haddress
    (fun event hevent => (hsized.events event hevent).addresses)
    (fun left hleft right hright name _ _ hkeys => by
      have hl := hsized.events left hleft
      have hr := hsized.events right hright
      obtain ⟨hheights, hindex⟩ := List.append_inj hkeys (by simp [heightKey])
      exact h.event_at_height hleft hright (heightKey_inj hl.height hr.height hheights)
        (indexKey_inj hl.index hr.index hindex))
  obtain ⟨rfl, _⟩ := Ledger.indexes_eq hindexes
  exact hfound

end Events

end PaqusNetwork
