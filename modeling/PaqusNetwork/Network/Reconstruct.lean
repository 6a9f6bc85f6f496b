import PaqusNetwork.Reference.Sample

namespace PaqusNetwork

open Effect OrderedMap

variable {F : Type} {paqus : Paqus F} {blockHash : BlockHash} {pool : Mempool} {compact : CompactBlock}
  {index shortId : Nat} {items supplied : List IndexedBlockTransaction} {block : Block} {shortIds : List Nat}
  {transaction : SignedProtocolTransaction}

section ShortIds

variable {transactions : List SignedProtocolTransaction}

/-- Each transaction stands at the position of its short id. -/
abbrev ShortIds (paqus : Paqus F) (blockHash : BlockHash) : List SignedProtocolTransaction → List Nat → Prop :=
  List.Forall₂ fun transaction shortId => transactionShortId paqus blockHash transaction = .ok shortId

theorem shortIdsOf_spec (h : shortIdsOf paqus blockHash transactions = .ok shortIds) :
    ShortIds paqus blockHash transactions shortIds := by
  induction transactions generalizing shortIds with
  | nil => cases h; exact .nil
  | cons transaction rest ih =>
    unfold shortIdsOf at h
    split at h
    next => cases h
    next shortId hid =>
      split at h
      next => cases h
      next ids hids => cases h; exact .cons hid (ih hids)

theorem ShortIds.at_index (h : ShortIds paqus blockHash transactions shortIds)
    (hat : transactions[index]? = some transaction) :
    ∃ shortId, shortIds[index]? = some shortId ∧
      transactionShortId paqus blockHash transaction = .ok shortId := by
  induction h generalizing index with
  | nil => simp at hat
  | cons hid _ ih =>
    cases index with
    | zero => cases hat; exact ⟨_, rfl, hid⟩
    | succ index => exact ih hat

theorem ShortIds.unique (h : ShortIds paqus blockHash transactions shortIds) (hnodup : shortIds.Nodup)
    {left right : SignedProtocolTransaction} (hleft : left ∈ transactions) (hright : right ∈ transactions)
    (hl : transactionShortId paqus blockHash left = .ok shortId)
    (hr : transactionShortId paqus blockHash right = .ok shortId) : left = right := by
  obtain ⟨i, hi⟩ := List.mem_iff_getElem?.mp hleft
  obtain ⟨j, hj⟩ := List.mem_iff_getElem?.mp hright
  obtain ⟨_, hi', hl'⟩ := h.at_index hi
  obtain ⟨_, hj', hr'⟩ := h.at_index hj
  cases hl.symm.trans hl'
  cases hr.symm.trans hr'
  have hlt : i < shortIds.length := (List.getElem?_eq_some_iff.mp hi').1
  have hij : i = j := (List.getElem?_inj hlt hnodup).mp (hi'.trans hj'.symm)
  rw [hij, hj] at hi
  exact (Option.some.inj hi).symm

end ShortIds

namespace CompactBlock

def Fits (paqus : Paqus F) (shortIds : List Nat) (blockHash : BlockHash) (item : IndexedBlockTransaction) :
    Prop :=
  ∃ shortId, shortIds[item.index]? = some shortId ∧ transactionShortId paqus blockHash item.transaction = .ok shortId

def suppliedEntry (paqus : Paqus F) (shortIds : List Nat) (blockHash : BlockHash)
    (item : IndexedBlockTransaction) : Except CompactBlockError (Option (Nat × SignedProtocolTransaction)) :=
  match shortIds[item.index]? with
  | none => .error .invalidTransactionIndex
  | some expected =>
    match transactionShortId paqus blockHash item.transaction with
    | .error error => .error error
    | .ok shortId =>
      if shortId ≠ expected then .error .transactionShortIdMismatch
      else .ok (some (item.index, item.transaction))

def pooledEntry (paqus : Paqus F) (wanted : List Nat) (blockHash : BlockHash)
    (transaction : SignedProtocolTransaction) :
    Except CompactBlockError (Option (Nat × SignedProtocolTransaction)) :=
  match transactionShortId paqus blockHash transaction with
  | .error error => .error error
  | .ok shortId => if shortId ∉ wanted then .ok none else .ok (some (shortId, transaction))

section Entries

variable {item : IndexedBlockTransaction} {transaction : SignedProtocolTransaction}
  {found : Option (Nat × SignedProtocolTransaction)}

theorem suppliedByIndex_eq (items : List IndexedBlockTransaction) (map : BTreeMap Nat SignedProtocolTransaction) :
    suppliedByIndex paqus shortIds blockHash items map =
      collect (suppliedEntry paqus shortIds blockHash) .duplicateTransactionIndex items map := by
  induction items generalizing map with
  | nil => rfl
  | cons item rest ih =>
    simp only [suppliedByIndex, collect, suppliedEntry]
    cases shortIds[item.index]? with
    | none => rfl
    | some expected =>
      cases transactionShortId paqus blockHash item.transaction with
      | error error => rfl
      | ok shortId => by_cases hsame : shortId = expected <;> simp [hsame, ih]

theorem mempoolByShortId_eq (pooled : List SignedProtocolTransaction) (map : BTreeMap Nat SignedProtocolTransaction) :
    mempoolByShortId paqus shortIds blockHash pooled map =
      collect (pooledEntry paqus shortIds blockHash) .shortIdCollision pooled map := by
  induction pooled generalizing map with
  | nil => rfl
  | cons transaction rest ih =>
    simp only [mempoolByShortId, collect, pooledEntry]
    cases transactionShortId paqus blockHash transaction with
    | error error => rfl
    | ok shortId => by_cases hwanted : shortId ∈ shortIds <;> simp [hwanted, ih]

theorem suppliedEntry_eq_ok : suppliedEntry paqus shortIds blockHash item = .ok found ↔
    Fits paqus shortIds blockHash item ∧ found = some (item.index, item.transaction) := by
  unfold suppliedEntry Fits
  cases shortIds[item.index]? with
  | none => simp
  | some expected =>
    cases transactionShortId paqus blockHash item.transaction with
    | error error => simp
    | ok shortId => by_cases hsame : shortId = expected <;> simp [hsame, eq_comm]

theorem pooledEntry_eq_some {kept : SignedProtocolTransaction} :
    pooledEntry paqus shortIds blockHash transaction = .ok (some (shortId, kept)) ↔
      shortId ∈ shortIds ∧ transactionShortId paqus blockHash transaction = .ok shortId ∧ kept = transaction := by
  unfold pooledEntry
  cases transactionShortId paqus blockHash transaction with
  | error error => simp
  | ok own =>
    by_cases hwanted : own ∈ shortIds
    · simp only [hwanted, not_true_eq_false, if_false, Except.ok.injEq, Option.some.injEq, Prod.mk.injEq]
      constructor
      · rintro ⟨rfl, rfl⟩
        exact ⟨hwanted, rfl, rfl⟩
      · rintro ⟨_, rfl, rfl⟩
        exact ⟨rfl, rfl⟩
    · simp only [hwanted, not_false_eq_true, if_true, Except.ok.injEq, reduceCtorEq, false_iff]
      rintro ⟨hmem, rfl, _⟩
      exact hwanted hmem

theorem supplied_collectable_iff :
    Collectable (suppliedEntry paqus shortIds blockHash) items ∅ ↔
      (∀ item ∈ items, Fits paqus shortIds blockHash item) ∧
        (items.map IndexedBlockTransaction.index).Nodup := by
  constructor
  · rintro ⟨hread, hdistinct, _⟩
    have hentry : ∀ item ∈ items, Fits paqus shortIds blockHash item ∧
        suppliedEntry paqus shortIds blockHash item = .ok (some (item.index, item.transaction)) := by
      intro item hitem
      obtain ⟨found, hfound⟩ := hread item hitem
      obtain ⟨hfits, rfl⟩ := suppliedEntry_eq_ok.mp hfound
      exact ⟨hfits, hfound⟩
    refine ⟨fun item hitem => (hentry item hitem).1, List.pairwise_map.mpr ?_⟩
    refine hdistinct.imp_of_mem fun {left right} hleft hright hne heq => ?_
    exact hne _ _ _ (hentry left hleft).2 (heq ▸ (hentry right hright).2)
  · rintro ⟨hfits, hdistinct⟩
    refine ⟨fun item hitem => ⟨_, suppliedEntry_eq_ok.mpr ⟨hfits item hitem, rfl⟩⟩, ?_,
      fun _ _ _ _ _ => Std.ExtTreeMap.getElem?_empty⟩
    refine (List.pairwise_map.mp hdistinct).imp fun hne key value value' hleft hright => hne ?_
    cases (suppliedEntry_eq_ok.mp hleft).2
    exact (Prod.mk.inj (Option.some.inj (suppliedEntry_eq_ok.mp hright).2)).1

theorem length_le_of_fits (hfits : ∀ item ∈ items, Fits paqus shortIds blockHash item)
    (hdistinct : (items.map IndexedBlockTransaction.index).Nodup) : items.length ≤ shortIds.length := by
  have hsub : items.map IndexedBlockTransaction.index ⊆ List.range shortIds.length := by
    intro index hindex
    obtain ⟨item, hitem, rfl⟩ := List.mem_map.mp hindex
    obtain ⟨_, hat, _⟩ := hfits item hitem
    exact List.mem_range.mpr (List.getElem?_eq_some_iff.mp hat).1
  simpa using (List.subperm_of_subset hdistinct hsub).length_le

end Entries

theorem fill_complete {supplied pooled : BTreeMap Nat SignedProtocolTransaction}
    {transactions : List SignedProtocolTransaction} (hlength : transactions.length = shortIds.length)
    (hfilled : ∀ offset transaction shortId, transactions[offset]? = some transaction →
      shortIds[offset]? = some shortId → supplied[index + offset]? = some transaction ∨
        (supplied[index + offset]? = none ∧ pooled[shortId]? = some transaction)) :
    fill supplied pooled index shortIds = (transactions, []) := by
  induction shortIds generalizing index transactions with
  | nil => cases List.length_eq_zero_iff.mp hlength; rfl
  | cons shortId rest ih =>
    cases transactions with
    | nil => cases hlength
    | cons transaction others =>
      have htail : fill supplied pooled (index + 1) rest = (others, []) := by
        refine ih (Nat.succ.inj hlength) fun offset other id ho hi => ?_
        have h := hfilled (offset + 1) other id ho hi
        rwa [show index + (offset + 1) = index + 1 + offset by omega] at h
      rcases hfilled 0 transaction shortId rfl rfl with hs | ⟨hnone, hp⟩
      · have hs' : supplied[index]? = some transaction := hs
        simp only [fill, hs', htail]
      · have hnone' : supplied[index]? = none := hnone
        simp only [fill, hnone', hp, htail]

/-- The supplied transactions are the block's own, and every other transaction of the block is in the pool. -/
structure Supplies (block : Block) (pool : Mempool) (supplied : List IndexedBlockTransaction) : Prop where
  own : ∀ item ∈ supplied, block.transactions[item.index]? = some item.transaction
  distinct : (supplied.map IndexedBlockTransaction.index).Nodup
  covers : ∀ index transaction, block.transactions[index]? = some transaction →
    transaction ∈ pool.values ∨ ∃ item ∈ supplied, item.index = index

/-- A pooled transaction with a short id of the block is one of the block's own. -/
def NoForeignShortId (paqus : Paqus F) (block : Block) (compact : CompactBlock) (pool : Mempool) : Prop :=
  ∀ blockHash, paqus.blockHash block = .ok blockHash → ∀ transaction ∈ pool.values,
    ∀ shortId ∈ compact.shortIds, transactionShortId paqus blockHash transaction = .ok shortId →
      transaction ∈ block.transactions

theorem values_pairwise (hpool : pool.Built paqus)
    {related : SignedProtocolTransaction → SignedProtocolTransaction → Prop}
    (h : ∀ left ∈ pool.values, ∀ right ∈ pool.values, left ≠ right → related left right) :
    pool.values.Pairwise related := by
  have hkeys : pool.transactions.toList.Pairwise fun left right => left.2 ≠ right.2 := by
    refine List.Pairwise.imp_of_mem (fun {left right} hl hr hne he => hne ?_) Std.ExtTreeMap.distinct_keys_toList
    have hleft := (hpool.encoded _ _ (Std.ExtTreeMap.mem_toList_iff_getElem?_eq_some.mp hl)).1
    have hright := (hpool.encoded _ _ (Std.ExtTreeMap.mem_toList_iff_getElem?_eq_some.mp hr)).1
    rw [he, hright] at hleft
    exact compare_eq_iff_eq.mpr (Except.ok.inj hleft).symm
  refine List.pairwise_map.mpr (List.Pairwise.imp_of_mem (fun {left right} hl hr hne => ?_) hkeys)
  exact h _ (List.mem_map_of_mem hl) _ (List.mem_map_of_mem hr) hne

theorem values_shortId (hpool : pool.Built paqus) (h : transaction ∈ pool.values) (blockHash : BlockHash) :
    ∃ shortId, transactionShortId paqus blockHash transaction = .ok shortId := by
  obtain ⟨⟨hash, _⟩, hmem, rfl⟩ := List.mem_map.mp h
  have hhash := (hpool.encoded _ _ (Std.ExtTreeMap.mem_toList_iff_getElem?_eq_some.mp hmem)).1
  exact ⟨compactShortId paqus blockHash hash, by simp only [transactionShortId, hhash]⟩

theorem fromBlock_eq_ok (h : fromBlock paqus block = .ok compact) :
    ∃ blockHash, paqus.blockHash block = .ok blockHash ∧ block.transactions.length ≤ paqus.rules.maxBlockDecodeItems ∧
      ShortIds paqus blockHash block.transactions compact.shortIds ∧ compact.shortIds.Nodup ∧
      compact.header = block.header ∧ compact.genesisAllocations = block.body.genesisAllocations ∧
      compact.coinbase = block.body.coinbase := by
  unfold fromBlock at h
  split at h
  next => cases h
  next hlength =>
    split at h
    next => cases h
    next blockHash hhash =>
      split at h
      next => cases h
      next shortIds hids =>
        split at h
        next hnodup =>
          cases h
          exact ⟨blockHash, hhash, by omega, shortIdsOf_spec hids, hnodup, rfl, rfl, rfl⟩
        next => cases h

/-- What `reconstruct` asks of its input. -/
structure Readable (paqus : Paqus F) (compact : CompactBlock) (pool : Mempool)
    (supplied : List IndexedBlockTransaction) (blockHash : BlockHash) : Prop where
  short : compact.shortIds.length ≤ paqus.rules.maxBlockDecodeItems
  few : supplied.length ≤ maxCompactMissingTransactions paqus
  nodup : compact.shortIds.Nodup
  hashed : compact.blockHash paqus = .ok blockHash
  supplied : Collectable (suppliedEntry paqus compact.shortIds blockHash) supplied ∅
  pooled : Collectable (pooledEntry paqus compact.shortIds blockHash) pool.values ∅

def assemble (compact : CompactBlock) (supplied pooled : BTreeMap Nat SignedProtocolTransaction) :
    CompactBlockReconstruction :=
  let filled := fill supplied pooled 0 compact.shortIds
  if filled.2 ≠ [] then .missing filled.2
  else .complete ⟨compact.header, ⟨compact.genesisAllocations, compact.coinbase, filled.1⟩, ⟨0⟩⟩

theorem Readable.reconstruct_eq (h : Readable paqus compact pool supplied blockHash) :
    ∃ byIndex byShortId : BTreeMap Nat SignedProtocolTransaction,
      (∀ (index : Nat) transaction, byIndex[index]? = some transaction ↔ ⟨index, transaction⟩ ∈ supplied) ∧
      (∀ (shortId : Nat) transaction, byShortId[shortId]? = some transaction ↔
        shortId ∈ compact.shortIds ∧ transaction ∈ pool.values ∧
          transactionShortId paqus blockHash transaction = .ok shortId) ∧
      compact.reconstruct paqus pool supplied = .ok (compact.assemble byIndex byShortId) := by
  obtain ⟨byIndex, hbyIndex⟩ := h.supplied.collect .duplicateTransactionIndex
  obtain ⟨byShortId, hbyShortId⟩ := h.pooled.collect .shortIdCollision
  obtain ⟨hread, hget⟩ := collect_eq_ok hbyIndex
  obtain ⟨_, hget'⟩ := collect_eq_ok hbyShortId
  rw [← suppliedByIndex_eq] at hbyIndex
  rw [← mempoolByShortId_eq] at hbyShortId
  refine ⟨byIndex, byShortId, fun index transaction => ?_, fun shortId transaction => ?_, ?_⟩
  · rw [hget, Std.ExtTreeMap.getElem?_empty]
    simp only [reduceCtorEq, false_or]
    constructor
    · rintro ⟨item, hitem, hentry⟩
      cases (suppliedEntry_eq_ok.mp hentry).2
      exact hitem
    · intro hitem
      obtain ⟨found, hfound⟩ := hread.read _ hitem
      exact ⟨_, hitem, (suppliedEntry_eq_ok.mp hfound).2 ▸ hfound⟩
  · rw [hget', Std.ExtTreeMap.getElem?_empty]
    simp only [reduceCtorEq, false_or, pooledEntry_eq_some]
    constructor
    · rintro ⟨_, hpooled, hwanted, hid, rfl⟩
      exact ⟨hwanted, hpooled, hid⟩
    · rintro ⟨hwanted, hpooled, hid⟩
      exact ⟨_, hpooled, hwanted, hid, rfl⟩
  have hwithin : ¬(compact.shortIds.length > paqus.rules.maxBlockDecodeItems ∨
      supplied.length > maxCompactMissingTransactions paqus) := by
    have hshort := h.short
    have hfew := h.few
    omega
  unfold reconstruct assemble
  rw [if_neg hwithin, if_neg (not_not.mpr h.nodup)]
  simp only [h.hashed, hbyIndex, hbyShortId]
  split <;> rfl

theorem reconstruct_ok (hpool : pool.Built paqus)
    (hcompact : fromBlock paqus block = .ok compact) (hsupplied : Supplies block pool supplied)
    (hclash : NoForeignShortId paqus block compact pool) :
    compact.reconstruct paqus pool supplied = .ok (.complete { block with proof := ⟨0⟩ }) := by
  obtain ⟨blockHash, hhash, hlength, hids, hnodup, hheader, hallocations, hcoinbase⟩ := fromBlock_eq_ok hcompact
  have hfits : ∀ item ∈ supplied, Fits paqus compact.shortIds blockHash item :=
    fun item hitem => hids.at_index (hsupplied.own item hitem)
  have hshort : compact.shortIds.length ≤ paqus.rules.maxBlockDecodeItems := hids.length_eq ▸ hlength
  have hread : Readable paqus compact pool supplied blockHash := by
    refine ⟨hshort, (length_le_of_fits hfits hsupplied.distinct).trans hshort, hnodup, ?_,
      supplied_collectable_iff.mpr ⟨hfits, hsupplied.distinct⟩,
      ⟨fun transaction ht => ?_, ?_, fun _ _ _ _ _ => Std.ExtTreeMap.getElem?_empty⟩⟩
    · have hheaderHash : paqus.codec.headerHash block.header = .ok blockHash := hhash
      simp only [CompactBlock.blockHash, hheader, hheaderHash]
    · obtain ⟨shortId, hid⟩ := values_shortId hpool ht blockHash
      unfold pooledEntry
      rw [hid]
      dsimp only
      split <;> exact ⟨_, rfl⟩
    · refine values_pairwise hpool fun left hl right hr hne key value value' hleft hright => hne ?_
      obtain ⟨hs, hid, _⟩ := pooledEntry_eq_some.mp hleft
      obtain ⟨_, hid', _⟩ := pooledEntry_eq_some.mp hright
      exact hids.unique hnodup (hclash _ hhash left hl key hs hid) (hclash _ hhash right hr key hs hid') hid hid'
  obtain ⟨byIndex, byShortId, hget, hget', hresult⟩ := hread.reconstruct_eq
  have hfill : fill byIndex byShortId 0 compact.shortIds = (block.transactions, []) := by
    refine fill_complete hids.length_eq fun offset transaction shortId ht hs => ?_
    obtain ⟨_, hs', hid⟩ := hids.at_index ht
    cases hs.symm.trans hs'
    rw [Nat.zero_add]
    by_cases hin : ∃ item ∈ supplied, item.index = offset
    · obtain ⟨item, hitem, rfl⟩ := hin
      have hown := hsupplied.own item hitem
      rw [ht] at hown
      cases hown
      exact .inl ((hget _ _).mpr hitem)
    · have hpooled := (hsupplied.covers offset transaction ht).resolve_right hin
      refine .inr ⟨?_, (hget' _ _).mpr ⟨List.mem_of_getElem? hs, hpooled, hid⟩⟩
      rw [Option.eq_none_iff_forall_ne_some]
      exact fun other hother => hin ⟨_, (hget _ _).mp hother, rfl⟩
  rw [hresult, assemble, hfill, hheader, hallocations, hcoinbase]
  rfl

/-- The rebuilt block is the block itself exactly when its nonce is 0. -/
theorem reconstruct_eq_iff {block : Block} {compact : CompactBlock} {pool : Mempool}
    {supplied : List IndexedBlockTransaction} (hpool : pool.Built paqus)
    (hcompact : fromBlock paqus block = .ok compact) (hsupplied : Supplies block pool supplied)
    (hclash : NoForeignShortId paqus block compact pool) :
    compact.reconstruct paqus pool supplied = .ok (.complete block) ↔ block.proof = ⟨0⟩ := by
  rw [reconstruct_ok hpool hcompact hsupplied hclash]
  constructor
  · intro h
    have hblock := CompactBlockReconstruction.complete.inj (Except.ok.inj h)
    rw [← hblock]
  · intro h
    rw [← h]

end CompactBlock

namespace Reference

open CompactBlock

def pooledTransfer : SignedProtocolTransaction := transfer 501 1 0 2 30

def suppliedTransfer : SignedProtocolTransaction := transfer 502 2 0 3 40

def relayed (hash : Nat) : Block := (Tip.genesis.next hash 1 [pooledTransfer, suppliedTransfer]).block

def relayPool : Mempool :=
  state (Mempool.insertValidated (protocol 2) 0 Tip.genesis.ledger pooledTransfer (Mempool.withConfig .default))

theorem relayPool_built : relayPool.Built (protocol 2) := .step (.withConfig .default) (.inserted 0 pooledTransfer)

theorem relayPool_values : relayPool.values = [pooledTransfer] := by decide +kernel

theorem relayed_supplies (hash : Nat) : Supplies (relayed hash) relayPool [⟨1, suppliedTransfer⟩] where
  own := by simp [relayed, Tip.next, Block.transactions]
  distinct := by simp
  covers := by
    intro index transaction hat
    rw [relayPool_values]
    match index with
    | 0 => cases hat; exact .inl (by simp)
    | 1 => exact .inr ⟨_, List.mem_singleton.mpr rfl, rfl⟩
    | index + 2 => simp [relayed, Tip.next, Block.transactions] at hat

theorem relayed_noForeign (hash : Nat) (compact : CompactBlock) :
    NoForeignShortId (protocol 2) (relayed hash) compact relayPool := by
  intro _ _ transaction ht _ _ _
  rw [relayPool_values, List.mem_singleton] at ht
  simp [ht, relayed, Tip.next, Block.transactions]

theorem reconstruct_eq_relayed :
    ∃ compact, fromBlock (protocol 2) (relayed 112) = .ok compact ∧
      compact.reconstruct (protocol 2) relayPool [⟨1, suppliedTransfer⟩] = .ok (.complete (relayed 112)) := by
  have hok : (fromBlock (protocol 2) (relayed 112)).toOption.isSome = true := by decide +kernel
  cases h : fromBlock (protocol 2) (relayed 112) with
  | error error => rw [h] at hok; cases hok
  | ok compact =>
    exact ⟨compact, rfl, (reconstruct_eq_iff relayPool_built h (relayed_supplies 112)
      (relayed_noForeign 112 compact)).mpr rfl⟩

theorem reconstruct_ne_relayed :
    ∃ compact, fromBlock (protocol 2) (relayed 111) = .ok compact ∧
      relayPool.Built (protocol 2) ∧ Supplies (relayed 111) relayPool [⟨1, suppliedTransfer⟩] ∧
      NoForeignShortId (protocol 2) (relayed 111) compact relayPool ∧
      (relayed 111).proof = ⟨1⟩ ∧
      compact.reconstruct (protocol 2) relayPool [⟨1, suppliedTransfer⟩] =
        .ok (.complete { relayed 111 with proof := ⟨0⟩ }) ∧
      (protocol 2).rules.validateNextBlockWithTip ⟨1⟩ (relayed 111) genesisBlock = .ok () ∧
      (protocol 2).rules.validateNextBlockWithTip ⟨1⟩ { relayed 111 with proof := ⟨0⟩ } genesisBlock ≠
        .ok () := by
  have hok : (fromBlock (protocol 2) (relayed 111)).toOption.isSome = true := by decide +kernel
  cases h : fromBlock (protocol 2) (relayed 111) with
  | error error => rw [h] at hok; cases hok
  | ok compact =>
    exact ⟨compact, rfl, relayPool_built, relayed_supplies 111, relayed_noForeign 111 compact, rfl,
      reconstruct_ok relayPool_built h (relayed_supplies 111) (relayed_noForeign 111 compact),
      by decide +kernel, by decide +kernel⟩

end Reference

end PaqusNetwork
