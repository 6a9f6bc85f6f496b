import PaqusNetwork.Network.Inbound
import Mathlib.Algebra.Order.BigOperators.Group.Finset
import Mathlib.Algebra.BigOperators.Fin

namespace PaqusNetwork

open Borsh Numeric

variable {α : Type} {indexes : List Nat} {block : Block}
  {compact : CompactBlock} {transactions : List IndexedBlockTransaction}

/-- `MAX_BLOCK_SIZE` of the protocol crate. -/
def maxBlockSize : Nat := 5 * 1024 * 1024

namespace WireApi

variable (wire : WireApi)

def blocksSize (blocks : List Block) : Nat := (blocks.map fun block => (wire.block block).size).sum

def transactionsSize (transactions : List SignedProtocolTransaction) : Nat :=
  (transactions.map fun transaction => (wire.transaction transaction).size).sum

def Sendable (reply : Option PeerMessage) : Prop :=
  ∀ message, reply = some message → envelopeBytes + (wire.message message).size ≤ maxNetworkMessageSize

end WireApi

/-- The sizes of the protocol's types on the wire. -/
structure WireLaws {F : Type} (paqus : Paqus F) (api : PeerApi) (wire : WireApi) : Prop where
  hash_le : ∀ hash, (wire.hash hash).size ≤ 64
  hashSize_le : paqus.codec.hashSize ≤ 64
  header_le : ∀ header, (wire.header header).size ≤ 65536
  params_le : api.params.chainName.utf8ByteSize + api.params.protocolStage.utf8ByteSize +
    api.params.powAlgorithm.utf8ByteSize + api.params.difficultyAlgorithm.utf8ByteSize ≤ 65536
  transaction_ge : ∀ transaction, 8 ≤ (wire.transaction transaction).size
  block_ge : ∀ block : Block, wire.transactionsSize block.transactions ≤ (wire.block block).size

/-- The blocks of the node obey the size limit of blocks, and its pool the limits of pools. -/
structure Node.WithinLimits {F : Type} (node : Node F) (wire : WireApi) : Prop where
  ledger_le : ∀ {height block}, node.ledger.block height = some block → (wire.block block).size ≤ maxBlockSize
  cache_le : ∀ {hash block}, node.cache.blockByHash hash = some block → (wire.block block).size ≤ maxBlockSize
  count_le : node.mempool.values.length ≤ MempoolConfig.default.maxTransactions
  bytes_le : wire.transactionsSize node.mempool.values ≤ MempoolConfig.default.maxBytes

theorem sum_map_le {weight : α → Nat} {bound : Nat} (h : ∀ item, weight item ≤ bound)
    (items : List α) : (items.map weight).sum ≤ items.length * bound := by
  have hle := List.sum_le_card_nsmul (items.map weight) bound (by simpa using fun item _ => h item)
  simpa using hle

theorem sum_positions_le {items : List α} {positions : List Nat} (hnodup : positions.Nodup)
    (hlt : ∀ position ∈ positions, position < items.length) (weight : α → Nat) :
    (positions.map fun position => (items[position]?).elim 0 weight).sum ≤ (items.map weight).sum := by
  have hall : (items.map weight).sum =
      ∑ position ∈ Finset.range items.length, (items[position]?).elim 0 weight := by
    rw [Finset.sum_range, ← List.sum_ofFn]
    congr 1
    apply List.ext_getElem
    · simp
    · intro i hleft hright
      simp
  rw [hall, ← List.sum_toFinset _ hnodup]
  refine Finset.sum_le_sum_of_subset fun position hposition => ?_
  exact Finset.mem_range.mpr (hlt position (List.mem_toFinset.mp hposition))

theorem length_mapWhile_le (item : Nat → Option α) (start count : Nat) :
    (mapWhile item start count).length ≤ count := by
  induction count generalizing start with
  | zero => exact Nat.le_refl 0
  | succ count ih =>
    unfold mapWhile
    split
    next => exact Nat.zero_le _
    next =>
      have := ih (start + 1)
      rw [List.length_cons]
      omega

theorem length_heightRange_le (item : Nat → Option α) (start limit : Nat) :
    (heightRange item start limit).length ≤ maxRangeResponseItems := by
  have hle := length_mapWhile_le item start (saturatingAdd start (min limit maxRangeResponseItems) - start)
  unfold heightRange
  unfold saturatingAdd at hle ⊢
  omega

theorem CompactBlock.length_fill_le (supplied pooled : BTreeMap Nat SignedProtocolTransaction) (index : Nat)
    (shortIds : List Nat) : (fill supplied pooled index shortIds).2.length ≤ shortIds.length := by
  induction shortIds generalizing index with
  | nil => exact Nat.le_refl 0
  | cons shortId rest ih =>
    have hle := ih (index + 1)
    simp only [fill]
    split
    next => simp only [List.length_cons]; omega
    next =>
      split
      next => simp only [List.length_cons]; omega
      next => simp only [List.length_cons]; omega

variable {F : Type} {paqus : Paqus F} {api : PeerApi} {wire : WireApi}

theorem CompactBlock.length_missing_le {pool : Mempool} {supplied : List IndexedBlockTransaction}
    (h : compact.reconstruct paqus pool supplied = .ok (.missing indexes)) :
    indexes.length ≤ compact.shortIds.length := by
  unfold reconstruct at h
  split at h
  next => cases h
  next =>
    split at h
    next => cases h
    next =>
      split at h
      next => cases h
      next =>
        split at h
        next => cases h
        next =>
          split at h
          next => cases h
          next =>
            dsimp only at h
            split at h
            next =>
              cases h
              exact length_fill_le _ _ _ _
            next => cases h

theorem utf8ByteSize_hexEncode (bytes : List UInt8) : (hexEncode bytes).utf8ByteSize = 2 * bytes.length := by
  have hdigit : ∀ digit, digit < 16 → (Nat.digitChar digit).utf8Size = 1 := by
    intro digit h
    interval_cases digit <;> rfl
  unfold hexEncode
  induction bytes with
  | nil => rfl
  | cons byte rest ih =>
    have hbyte := byte.toNat_lt
    have hpair : ∀ high low, String.ofList [high, low] = String.singleton high ++ String.singleton low := by
      intro high low
      rw [String.singleton_eq_ofList, String.singleton_eq_ofList, ← String.ofList_append]
      rfl
    rw [List.flatMap_cons, String.ofList_append, String.utf8ByteSize_append, ih, hpair,
      String.utf8ByteSize_append, String.utf8ByteSize_singleton, String.utf8ByteSize_singleton,
      hdigit _ (by omega), hdigit _ (by omega), List.length_cons]
    omega

theorem transactionsAt_size (wire : WireApi) (h : transactionsAt block indexes = some transactions) :
    (∀ index ∈ indexes, index < block.transactions.length) ∧
      (transactions.map fun item => (wire.indexedTransaction item).size).sum =
        (indexes.map fun index => (block.transactions[index]?).elim 0
          fun transaction => 4 + (wire.transaction transaction).size).sum := by
  induction indexes generalizing transactions with
  | nil =>
    cases h
    exact ⟨by simp, rfl⟩
  | cons index rest ih =>
    rw [transactionsAt] at h
    obtain ⟨transaction, hindex, h⟩ := Option.bind_eq_some_iff.mp h
    obtain ⟨others, hrest, h⟩ := Option.bind_eq_some_iff.mp h
    cases h
    obtain ⟨hlt, hsum⟩ := ih hrest
    refine ⟨List.forall_mem_cons.mpr ⟨(List.getElem?_eq_some_iff.mp hindex).1, hlt⟩, ?_⟩
    rw [List.map_cons, List.sum_cons, hsum, List.map_cons, List.sum_cons, hindex]
    simp [WireApi.indexedTransaction, Value.size, Value.sizeAll]

namespace WireApi

theorem sendable_none (wire : WireApi) : wire.Sendable none := by
  rintro message ⟨⟩

theorem sendable_reject (wire : WireApi) (reason : RejectReason) {text : String}
    (h : text.utf8ByteSize ≤ 200) : wire.Sendable (some (.chain (.reject reason text))) := by
  rintro message ⟨⟩
  simp only [WireApi.message, size_variant, Value.sizeAll, Value.size_byte, Value.size_string]
  unfold envelopeBytes maxNetworkMessageSize
  omega

theorem sendable_block (h : (wire.block block).size ≤ maxBlockSize) : wire.Sendable (some (.chain (.block block))) := by
  rintro message ⟨⟩
  simp only [WireApi.message, size_variant, Value.sizeAll]
  unfold maxBlockSize at h
  unfold envelopeBytes maxNetworkMessageSize
  omega

theorem sendable_getData {items missing : List InventoryItem} (hsub : missing.Sublist items)
    (h : wire.Sendable (some (.inventory items))) : wire.Sendable (some (.getData missing)) := by
  rintro message ⟨⟩
  have hsize := h _ rfl
  have hle := (hsub.map fun item => (wire.inventoryItem item).size).sum_le_sum fun _ _ => Nat.zero_le _
  simp only [WireApi.message, size_variant, Value.sizeAll, Value.size_vec_map] at hsize ⊢
  omega

end WireApi

namespace WireLaws

variable (laws : WireLaws paqus api wire)

include laws

theorem tipInfo_le (info : TipInfo) : (wire.tipInfo info).size ≤ 136 := by
  have := laws.hash_le info.hash
  simp only [WireApi.tipInfo, Value.size, Value.sizeAll, Value.size_u64, size_workValue]
  omega

theorem sendable_tip (info : TipInfo) : wire.Sendable (some (.chain (.tip info))) := by
  rintro message ⟨⟩
  have htip := laws.tipInfo_le info
  simp only [WireApi.message, size_variant, Value.sizeAll]
  unfold envelopeBytes maxNetworkMessageSize
  omega

theorem sendable_commonAncestor (ancestor : Option TipInfo) :
    wire.Sendable (some (.chain (.commonAncestor ancestor))) := by
  rintro message ⟨⟩
  have htip := Value.size_option_le laws.tipInfo_le ancestor
  simp only [WireApi.message, size_variant, Value.sizeAll]
  unfold envelopeBytes maxNetworkMessageSize
  omega

theorem sendable_verAck (tip : Option TipInfo) :
    wire.Sendable (some (.verAck (VersionInfo.ofParams api.params tip))) := by
  rintro message ⟨⟩
  have hparams := laws.params_le
  have htip := Value.size_option_le laws.tipInfo_le tip
  simp only [WireApi.message, WireApi.versionInfo, VersionInfo.ofParams, size_variant, Value.size,
    Value.sizeAll, Value.size_byte, Value.size_u32, Value.size_string, size_magicValue]
  unfold envelopeBytes maxNetworkMessageSize
  omega

theorem sendable_headers {headers : List BlockHeader}
    (h : headers.length ≤ maxRangeResponseItems) : wire.Sendable (some (.chain (.blockHeaders headers))) := by
  rintro message ⟨⟩
  have hsum := sum_map_le laws.header_le headers
  have hcount := Nat.mul_le_mul_right 65536 h
  simp only [WireApi.message, size_variant, Value.sizeAll, Value.size_vec_map]
  unfold maxRangeResponseItems at hcount
  unfold envelopeBytes maxNetworkMessageSize
  omega

theorem sendable_getBlockByHash (hash : BlockHash) : wire.Sendable (some (.chain (.getBlockByHash hash))) := by
  rintro message ⟨⟩
  have hhash := laws.hash_le hash
  simp only [WireApi.message, size_variant, Value.sizeAll]
  unfold envelopeBytes maxNetworkMessageSize
  omega

theorem sendable_manifest (height : Nat) (blockHash : BlockHash) (size : Nat) (contentHash : Hash)
    (chunkSize : Nat) : wire.Sendable (some (.snapshotManifest height blockHash size contentHash chunkSize)) := by
  rintro message ⟨⟩
  have hblock := laws.hash_le blockHash
  have hcontent := laws.hash_le contentHash
  simp only [WireApi.message, size_variant, Value.sizeAll, Value.size_u64, Value.size_u32]
  unfold envelopeBytes maxNetworkMessageSize
  omega

theorem sendable_chunk {length : Nat} (h : length ≤ snapshotChunkSize)
    (height : Nat) (blockHash : BlockHash) (offset : Nat) (bytes : List UInt8) :
    wire.Sendable (some (snapshotChunkOf height blockHash offset length bytes)) := by
  unfold snapshotChunkOf
  split
  next => exact wire.sendable_reject _ (by decide)
  next =>
    rintro message ⟨⟩
    have hhash := laws.hash_le blockHash
    have hshort := length_compressChunk_le ((bytes.take (min (saturatingAdd offset length) bytes.length)).drop offset)
    rw [List.length_drop, List.length_take] at hshort
    simp only [WireApi.message, size_variant, Value.sizeAll, Value.size_u64, Value.size_u32, Value.size_byte,
      Value.size_bytes]
    unfold saturatingAdd at hshort ⊢
    unfold snapshotChunkSize at h
    unfold envelopeBytes maxNetworkMessageSize
    omega

theorem sendable_inventory {hashes : List TransactionHash} (h : hashes.length ≤ MempoolConfig.default.maxTransactions) :
    wire.Sendable (some (.inventory (hashes.map .transaction))) := by
  rintro message ⟨⟩
  have hitem : ∀ item, (wire.inventoryItem item).size ≤ 65 := by
    intro item
    cases item with
    | block hash | transaction hash =>
      have := laws.hash_le hash
      simp only [WireApi.inventoryItem, size_variant, Value.sizeAll]
      omega
  have hsum := sum_map_le hitem (hashes.map .transaction)
  have hcount : hashes.length * 65 ≤ 1000 * 65 := Nat.mul_le_mul_right 65 h
  rw [List.length_map] at hsum
  simp only [WireApi.message, size_variant, Value.sizeAll, Value.size_vec_map]
  unfold envelopeBytes maxNetworkMessageSize
  omega

theorem sendable_missing (hcompact : wire.Sendable (some (.compactBlock compact)))
    (h : indexes.length ≤ compact.shortIds.length) (blockHash : BlockHash) :
    wire.Sendable (some (.getCompactBlockTransactions blockHash indexes)) := by
  rintro message ⟨⟩
  have hhash := laws.hash_le blockHash
  have hsize := hcompact _ rfl
  simp only [WireApi.message, WireApi.compactBlock, size_variant, Value.size, Value.sizeAll,
    Value.sizeAll_eq, List.map_map, Function.comp_def, Value.size_u64, Value.size_u32, List.map_const',
    List.sum_replicate, smul_eq_mul] at hsize ⊢
  unfold envelopeBytes maxNetworkMessageSize at *
  omega

theorem sendable_compactTransactions (hblock : (wire.block block).size ≤ maxBlockSize) (hnodup : indexes.Nodup)
    (hfound : transactionsAt block indexes = some transactions) (blockHash : BlockHash) :
    wire.Sendable (some (.compactBlockTransactions blockHash transactions)) := by
  rintro message ⟨⟩
  obtain ⟨hlt, hsum⟩ := transactionsAt_size wire hfound
  have hpositions := sum_positions_le hnodup hlt fun transaction => 4 + (wire.transaction transaction).size
  -- As a transaction takes eight bytes, the positions add at most half of the size of the block.
  have hhalf : 2 * (block.transactions.map fun transaction => 4 + (wire.transaction transaction).size).sum ≤
      3 * wire.transactionsSize block.transactions := by
    unfold WireApi.transactionsSize
    induction block.transactions with
    | nil => exact Nat.le_refl 0
    | cons transaction rest ih =>
      have := laws.transaction_ge transaction
      simp only [List.map_cons, List.sum_cons]
      omega
  have hwithin := laws.block_ge block
  have hhash := laws.hash_le blockHash
  simp only [WireApi.message, size_variant, Value.sizeAll, Value.size_vec_map, hsum]
  unfold maxBlockSize at hblock
  unfold envelopeBytes maxNetworkMessageSize
  omega

end WireLaws

end PaqusNetwork
