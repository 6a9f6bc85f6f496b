import PaqusNetwork.Network.Reconstruct

namespace PaqusNetwork

open OrderedMap

variable {F : Type} {paqus : Paqus F} {blockHash : BlockHash} {compact : CompactBlock} {pool : Mempool}
  {supplied : List IndexedBlockTransaction}

namespace CompactBlock

theorem reconstruct_readable {outcome : CompactBlockReconstruction}
    (h : compact.reconstruct paqus pool supplied = .ok outcome) :
    ∃ blockHash, Readable paqus compact pool supplied blockHash := by
  unfold reconstruct at h
  split at h
  next => cases h
  next hwithin =>
  split at h
  next => cases h
  next hnodup =>
  split at h
  next => cases h
  next blockHash hhash =>
  split at h
  next => cases h
  next byIndex hindexed =>
  split at h
  next => cases h
  next byShortId hfound =>
  rw [suppliedByIndex_eq] at hindexed
  rw [mempoolByShortId_eq] at hfound
  rw [not_or, Nat.not_lt, Nat.not_lt] at hwithin
  exact ⟨blockHash, hwithin.1, hwithin.2, not_not.mp hnodup, hhash, (collect_eq_ok hindexed).1,
    (collect_eq_ok hfound).1⟩

section Fill

variable {byIndex byShortId : BTreeMap Nat SignedProtocolTransaction} {shortIds : List Nat}

theorem fill_missing (index : Nat) : (fill byIndex byShortId index shortIds).2 =
    ((shortIds.zipIdx index).filter fun entry =>
      byIndex[entry.2]?.isNone && byShortId[entry.1]?.isNone).map Prod.snd := by
  induction shortIds generalizing index with
  | nil => rfl
  | cons shortId rest ih =>
    rw [fill, List.zipIdx_cons, List.filter_cons]
    cases hsupplied : byIndex[index]? with
    | some transaction => simp [ih]
    | none =>
      cases hpooled : byShortId[shortId]? with
      | some transaction => simp [ih]
      | none => simp [ih]

theorem fill_filled {index : Nat} (h : (fill byIndex byShortId index shortIds).2 = []) :
    (fill byIndex byShortId index shortIds).1.map some =
      (shortIds.zipIdx index).map fun entry => byIndex[entry.2]?.or byShortId[entry.1]? := by
  induction shortIds generalizing index with
  | nil => rfl
  | cons shortId rest ih =>
    rw [fill] at h ⊢
    split at h
    next hsupplied => simp [hsupplied, ih h]
    next hsupplied =>
      split at h
      next hpooled => simp [hsupplied, hpooled, ih h]
      next => cases h

end Fill

/-- The short id of the position is neither that of an item supplied for it nor that of a pooled
transaction. -/
def Unmatched (paqus : Paqus F) (compact : CompactBlock) (pool : Mempool)
    (supplied : List IndexedBlockTransaction) (blockHash : BlockHash) (index : Nat) : Prop :=
  ∃ shortId, compact.shortIds[index]? = some shortId ∧
    (∀ item ∈ supplied, item.index = index → transactionShortId paqus blockHash item.transaction ≠ .ok shortId) ∧
    ∀ transaction ∈ pool.values, transactionShortId paqus blockHash transaction ≠ .ok shortId

/-- The transaction has the short id; it is the one supplied for the position, or else a pooled one. -/
structure Chosen (paqus : Paqus F) (pool : Mempool) (supplied : List IndexedBlockTransaction)
    (blockHash : BlockHash) (index shortId : Nat) (transaction : SignedProtocolTransaction) : Prop where
  matching : transactionShortId paqus blockHash transaction = .ok shortId
  preferred : ∀ item ∈ supplied, item.index = index → transaction = item.transaction
  pooled : (∀ item ∈ supplied, item.index ≠ index) → transaction ∈ pool.values

/-- The block has the parts of the compact one, and a chosen transaction for every short id. -/
structure Rebuilt (paqus : Paqus F) (compact : CompactBlock) (pool : Mempool)
    (supplied : List IndexedBlockTransaction) (blockHash : BlockHash) (block : Block) : Prop where
  header : block.header = compact.header
  genesisAllocations : block.body.genesisAllocations = compact.genesisAllocations
  coinbase : block.body.coinbase = compact.coinbase
  length : block.transactions.length = compact.shortIds.length
  chosen : ∀ (index shortId : Nat), compact.shortIds[index]? = some shortId →
    ∃ transaction, block.transactions[index]? = some transaction ∧
      Chosen paqus pool supplied blockHash index shortId transaction

section

variable (h : Readable paqus compact pool supplied blockHash)

include h

theorem Readable.looked_up :
    ∃ byIndex byShortId : BTreeMap Nat SignedProtocolTransaction,
      compact.reconstruct paqus pool supplied = .ok (compact.assemble byIndex byShortId) ∧
      ∀ index shortId, compact.shortIds[index]? = some shortId →
        (byIndex[index]? = none ↔ ∀ item ∈ supplied, item.index = index →
          transactionShortId paqus blockHash item.transaction ≠ .ok shortId) ∧
        (byShortId[shortId]? = none ↔
          ∀ transaction ∈ pool.values, transactionShortId paqus blockHash transaction ≠ .ok shortId) ∧
        ∀ transaction, byIndex[index]?.or byShortId[shortId]? = some transaction →
          Chosen paqus pool supplied blockHash index shortId transaction := by
  obtain ⟨byIndex, byShortId, hget, hget', hresult⟩ := h.reconstruct_eq
  refine ⟨byIndex, byShortId, hresult, fun index shortId hat => ?_⟩
  have hid : ∀ item ∈ supplied, item.index = index →
      transactionShortId paqus blockHash item.transaction = .ok shortId := by
    rintro item hitem rfl
    obtain ⟨other, hother, hid⟩ := (supplied_collectable_iff.mp h.supplied).1 item hitem
    cases hat.symm.trans hother
    exact hid
  refine ⟨?_, ?_, fun transaction hfound => ?_⟩
  · rw [Option.eq_none_iff_forall_ne_some]
    constructor
    · rintro hnone ⟨_, transaction⟩ hitem rfl
      exact absurd ((hget _ _).mpr hitem) (hnone transaction)
    · intro hnone transaction hfound
      have hitem := (hget _ _).mp hfound
      exact hnone _ hitem rfl (hid _ hitem rfl)
  · rw [Option.eq_none_iff_forall_ne_some]
    refine forall_congr' fun transaction => ⟨fun hne ht hid => ?_, fun hne hfound => ?_⟩
    · exact hne ((hget' _ _).mpr ⟨List.mem_of_getElem? hat, ht, hid⟩)
    · obtain ⟨_, ht, hid⟩ := (hget' _ _).mp hfound
      exact hne ht hid
  · cases hindexed : byIndex[index]? with
    | some first =>
      rw [hindexed, Option.some_or] at hfound
      cases hfound
      have hitem := (hget _ _).mp hindexed
      refine ⟨hid _ hitem rfl, ?_, fun hnone => absurd rfl (hnone _ hitem)⟩
      rintro ⟨_, other⟩ hother rfl
      exact Option.some.inj (hindexed.symm.trans ((hget _ _).mpr hother))
    | none =>
      rw [hindexed, Option.none_or] at hfound
      obtain ⟨_, ht, hid⟩ := (hget' _ _).mp hfound
      refine ⟨hid, ?_, fun _ => ht⟩
      rintro ⟨_, other⟩ hother rfl
      cases hindexed.symm.trans ((hget _ _).mpr hother)

/-- The reported positions ascend, and are those that nothing matches. -/
theorem Readable.missing_exact {indexes : List Nat}
    (hmissing : compact.reconstruct paqus pool supplied = .ok (.missing indexes)) :
    indexes ≠ [] ∧ indexes.Pairwise (· < ·) ∧
      ∀ index, index ∈ indexes ↔ Unmatched paqus compact pool supplied blockHash index := by
  obtain ⟨byIndex, byShortId, hresult, hlooked⟩ := h.looked_up
  rw [hresult] at hmissing
  unfold assemble at hmissing
  dsimp only at hmissing
  split at hmissing
  next hsome =>
    cases hmissing
    rw [fill_missing] at hsome ⊢
    refine ⟨hsome, ?_, fun index => ?_⟩
    · have hpositions : (compact.shortIds.zipIdx.map Prod.snd).Pairwise (· < ·) := by
        rw [List.zipIdx_map_snd]
        exact List.pairwise_lt_range'
      exact hpositions.sublist (List.filter_sublist.map _)
    · simp only [List.mem_map, List.mem_filter, Bool.and_eq_true, Option.isNone_iff_eq_none, Prod.exists,
        exists_eq_right, List.mk_mem_zipIdx_iff_getElem?]
      refine exists_congr fun shortId => and_congr_right fun hat => ?_
      exact and_congr (hlooked index shortId hat).1 (hlooked index shortId hat).2.1
  next => cases hmissing

theorem Readable.rebuilt {block : Block} (hcomplete : compact.reconstruct paqus pool supplied = .ok (.complete block)) :
    Rebuilt paqus compact pool supplied blockHash block := by
  obtain ⟨byIndex, byShortId, hresult, hlooked⟩ := h.looked_up
  rw [hresult] at hcomplete
  unfold assemble at hcomplete
  dsimp only at hcomplete
  split at hcomplete
  next => cases hcomplete
  next hnone =>
    cases hcomplete
    have hfilled := @fill_filled byIndex byShortId compact.shortIds 0 (not_not.mp hnone)
    refine ⟨rfl, rfl, rfl, ?_, fun index shortId hat => ?_⟩
    · have hlength := congrArg List.length hfilled
      rwa [List.length_map, List.length_map, List.length_zipIdx] at hlength
    have hposition := congrArg (·[index]?) hfilled
    simp only [List.getElem?_map, List.getElem?_zipIdx, hat, Option.map_some, Nat.zero_add,
      Option.map_eq_some_iff] at hposition
    obtain ⟨transaction, htransaction, hfound⟩ := hposition
    exact ⟨transaction, htransaction, (hlooked index shortId hat).2.2 transaction hfound.symm⟩

/-- With the transactions for the reported positions, each with its short id, the block is complete. -/
theorem Readable.follow_up {indexes : List Nat}
    (hmissing : compact.reconstruct paqus pool supplied = .ok (.missing indexes))
    {more : List IndexedBlockTransaction} (hmore : (more.map IndexedBlockTransaction.index).Perm indexes)
    (hfits : ∀ item ∈ more, Fits paqus compact.shortIds blockHash item) :
    ∃ block, compact.reconstruct paqus pool (supplied ++ more) = .ok (.complete block) := by
  obtain ⟨_, hascending, hexact⟩ := h.missing_exact hmissing
  obtain ⟨hold, hdistinct⟩ := supplied_collectable_iff.mp h.supplied
  have hapart : ∀ item ∈ supplied, ∀ other ∈ more, item.index ≠ other.index := by
    intro item hitem other hother heq
    obtain ⟨shortId, hat, hnone, _⟩ := (hexact _).mp (hmore.mem_iff.mp (List.mem_map_of_mem hother))
    obtain ⟨own, hown, hid⟩ := hold item hitem
    rw [heq, hat] at hown
    cases hown
    exact hnone item hitem heq hid
  have hall : ∀ item ∈ supplied ++ more, Fits paqus compact.shortIds blockHash item :=
    fun item hitem => (List.mem_append.mp hitem).elim (hold item) (hfits item)
  have hnodup : ((supplied ++ more).map IndexedBlockTransaction.index).Nodup := by
    rw [List.map_append, List.nodup_append]
    refine ⟨hdistinct, hmore.nodup_iff.mpr (hascending.imp Nat.ne_of_lt), ?_⟩
    intro index hindex other hother
    obtain ⟨item, hitem, rfl⟩ := List.mem_map.mp hindex
    obtain ⟨item', hitem', rfl⟩ := List.mem_map.mp hother
    exact hapart item hitem item' hitem'
  have hread : Readable paqus compact pool (supplied ++ more) blockHash :=
    ⟨h.short, (length_le_of_fits hall hnodup).trans h.short, h.nodup, h.hashed,
      supplied_collectable_iff.mpr ⟨hall, hnodup⟩, h.pooled⟩
  obtain ⟨byIndex, byShortId, hresult, _⟩ := hread.looked_up
  cases houtcome : compact.assemble byIndex byShortId with
  | complete block => exact ⟨block, hresult.trans (congrArg _ houtcome)⟩
  | missing still =>
    obtain ⟨hsome, _, hstill⟩ := hread.missing_exact (hresult.trans (congrArg _ houtcome))
    obtain ⟨index, hindex⟩ := List.exists_mem_of_ne_nil still hsome
    obtain ⟨shortId, hat, hnone, hpool⟩ := (hstill index).mp hindex
    have hreported : index ∈ indexes := (hexact index).mpr
      ⟨shortId, hat, fun item hitem => hnone item (List.mem_append_left _ hitem), hpool⟩
    obtain ⟨item, hitem, rfl⟩ := List.mem_map.mp (hmore.mem_iff.mpr hreported)
    obtain ⟨own, hown, hid⟩ := hfits item hitem
    cases hat.symm.trans hown
    exact absurd hid (hnone item (List.mem_append_right _ hitem) rfl)

end

/-- The reported positions are exactly those that nothing matches, and the block is rebuilt once transactions
for them are supplied. -/
theorem reconstruct_exact (paqus : Paqus F) (compact : CompactBlock) (pool : Mempool)
    (supplied : List IndexedBlockTransaction) :
    (∀ indexes, compact.reconstruct paqus pool supplied = .ok (.missing indexes) →
      ∃ blockHash, compact.blockHash paqus = .ok blockHash ∧ indexes.Pairwise (· < ·) ∧
        (∀ index, index ∈ indexes ↔ Unmatched paqus compact pool supplied blockHash index) ∧
        ∀ more, (more.map IndexedBlockTransaction.index).Perm indexes →
          (∀ item ∈ more, Fits paqus compact.shortIds blockHash item) →
            ∃ block, compact.reconstruct paqus pool (supplied ++ more) = .ok (.complete block)) ∧
    ∀ block, compact.reconstruct paqus pool supplied = .ok (.complete block) →
      ∃ blockHash, compact.blockHash paqus = .ok blockHash ∧
        Rebuilt paqus compact pool supplied blockHash block := by
  constructor
  · intro indexes hmissing
    obtain ⟨blockHash, hread⟩ := reconstruct_readable hmissing
    obtain ⟨_, hascending, hexact⟩ := hread.missing_exact hmissing
    exact ⟨blockHash, hread.hashed, hascending, hexact, fun more hmore hfits => hread.follow_up hmissing hmore hfits⟩
  · intro block hcomplete
    obtain ⟨blockHash, hread⟩ := reconstruct_readable hcomplete
    exact ⟨blockHash, hread.hashed, hread.rebuilt hcomplete⟩

end CompactBlock

namespace Reference

open CompactBlock

def relayedPair : CompactBlock :=
  ⟨(relayed 112).header, [], none, [compactShortId (protocol 2) 112 501, compactShortId (protocol 2) 112 502]⟩

theorem reconstruct_exact_relayedPair :
    relayedPair.reconstruct (protocol 2) relayPool [] = .ok (.missing [1]) ∧
      ∃ block, relayedPair.reconstruct (protocol 2) relayPool [⟨1, suppliedTransfer⟩] = .ok (.complete block) := by
  have hmissing : relayedPair.reconstruct (protocol 2) relayPool [] = .ok (.missing [1]) := by decide +kernel
  obtain ⟨blockHash, hhash, _, _, hcomplete⟩ := (reconstruct_exact (protocol 2) relayedPair relayPool []).1 [1] hmissing
  have hown : relayedPair.blockHash (protocol 2) = .ok 112 := by decide +kernel
  cases hhash.symm.trans hown
  refine ⟨hmissing, hcomplete [⟨1, suppliedTransfer⟩] (.refl _) fun item hitem => ?_⟩
  cases List.mem_singleton.mp hitem
  exact ⟨_, rfl, by decide +kernel⟩

/-- The second call, with the transaction of the reported position alone, misses the one that the first
call was given. -/
theorem reconstruct_misses_again :
    relayedPair.reconstruct (protocol 2) (Mempool.withConfig .default) [⟨0, pooledTransfer⟩] = .ok (.missing [1]) ∧
      relayedPair.reconstruct (protocol 2) (Mempool.withConfig .default) [⟨1, suppliedTransfer⟩] =
        .ok (.missing [0]) := by
  decide +kernel

end Reference

end PaqusNetwork
