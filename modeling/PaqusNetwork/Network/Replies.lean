import PaqusNetwork.Network.Reconcile
import PaqusNetwork.Network.ReplySizes

namespace PaqusNetwork

open Borsh Effect Numeric

variable {F : Type} (paqus : Paqus F) (wire : WireApi) {node : Node F}

/-- The bytes of what a message asks for by a range of heights, by hashes or by a bucket of the pool. -/
def Node.requestedBytes (node : Node F) : PeerMessage → Nat
  | .chain (.getBlocksByHeightRange start limit) =>
    wire.blocksSize (heightRange node.ledger.block start limit)
  | .getData items =>
    if (node.blocksOf items).isEmpty then wire.transactionsSize (node.transactionsOf items)
    else wire.blocksSize (node.blocksOf items)
  | .reconcileMempool epoch shortIds =>
    if shortIds.length > paqus.rules.maxBlockDecodeItems ∨ ¬shortIds.Nodup then 0
    else wire.transactionsSize (node.mempool.values.filter (wantedInBucket paqus epoch shortIds))
  | _ => 0

/-- The answer to a message is small, or a list of what the message asks for. -/
def Node.Answers (node : Node F) (message : PeerMessage) (reply : Option PeerMessage) : Prop :=
  (wire.Sendable reply ∧ node.requestedBytes paqus wire message = 0) ∨
    ∀ found, reply = some found → (wire.message found).size = 5 + node.requestedBytes paqus wire message

variable {paqus wire} {api : PeerApi}

theorem size_blocks (blocks : List Block) :
    (wire.message (.chain (.blocks blocks))).size = 5 + wire.blocksSize blocks := by
  simp only [WireApi.message, size_variant, Value.sizeAll, Value.size_vec_map, WireApi.blocksSize]
  omega

theorem size_transactions (transactions : List SignedProtocolTransaction) :
    (wire.message (.transactions transactions)).size = 5 + wire.transactionsSize transactions := by
  simp only [WireApi.message, size_variant, Value.sizeAll, Value.size_vec_map, WireApi.transactionsSize]
  omega

section

variable (laws : WireLaws paqus api wire)

include laws

theorem handleMessage_answers (hlimits : node.WithinLimits wire) (message : NetworkMessage)
    {reply : Option NetworkMessage} {after : Node F} (h : handleMessage paqus message node = .ok reply after) :
    node.Answers paqus wire (.chain message) (reply.map .chain) := by
  unfold handleMessage at h
  rw [get_bind] at h
  cases message with
  | ping nonce =>
    cases h
    refine .inl ⟨?_, rfl⟩
    rintro found ⟨⟩
    simp only [WireApi.message, size_variant, Value.sizeAll, Value.size_u64]
    decide
  | getTip =>
    cases h
    refine .inl ⟨?_, rfl⟩
    cases localTip paqus node with
    | none => exact wire.sendable_none
    | some info => exact laws.sendable_tip info
  | getBlockByHeight height =>
    cases h
    refine .inl ⟨?_, rfl⟩
    cases hblock : node.ledger.block height with
    | none => exact wire.sendable_none
    | some block => exact WireApi.sendable_block (hlimits.ledger_le hblock)
  | getBlocksByHeightRange start limit =>
    cases h
    refine .inr ?_
    rintro found ⟨⟩
    exact size_blocks _
  | getBlockHeadersByHeightRange start limit =>
    cases h
    exact .inl ⟨laws.sendable_headers (length_heightRange_le _ _ _), rfl⟩
  | getCommonAncestor locator =>
    cases h
    exact .inl ⟨laws.sendable_commonAncestor _, rfl⟩
  | getBlockByHash hash =>
    refine .inl ⟨?_, rfl⟩
    cases hblock : node.cache.blockByHash hash with
    | some block =>
      simp only [hblock] at h
      cases h
      exact WireApi.sendable_block (hlimits.cache_le hblock)
    | none =>
      simp only [hblock] at h
      cases h
      apply wire.sendable_reject
      have hsize := laws.hashSize_le
      rw [String.utf8ByteSize_append, hashHex, utf8ByteSize_hexEncode, length_bigEndian]
      have htext : "block not found: ".utf8ByteSize = 17 := by decide
      omega
  | block block | blocks blocks =>
    obtain ⟨_, _, _, h⟩ := bind_eq_ok.mp h
    cases h
    exact .inl ⟨wire.sendable_none, rfl⟩
  | _ =>
    cases h
    exact .inl ⟨wire.sendable_none, rfl⟩

theorem snapshotManifestReply_brings (height : Nat) (blockHash : BlockHash) :
    Brings wire.Sendable (snapshotManifestReply (F := F) api height blockHash) := by
  refine Brings.later fun node => ?_
  split
  · exact Brings.pure (wire.sendable_reject _ (by decide))
  · exact Brings.later fun bytes => Brings.pure (laws.sendable_manifest _ _ _ _ _)

theorem snapshotChunkReply_brings (height : Nat) (blockHash : BlockHash) (offset length : Nat) :
    Brings wire.Sendable (snapshotChunkReply (F := F) api height blockHash offset length) := by
  refine Brings.later fun node => ?_
  split
  · exact Brings.pure (wire.sendable_reject _ (by decide))
  next hvalid =>
    exact Brings.later fun bytes => Brings.pure (laws.sendable_chunk (by omega) _ _ _ _)

theorem compactBlockReply_brings {compact : CompactBlock} (hcompact : wire.Sendable (some (.compactBlock compact))) :
    Brings wire.Sendable (compactBlockReply paqus compact) := by
  refine Brings.later fun node => ?_
  split
  · exact Brings.pure (wire.sendable_reject _ (by decide))
  · split
    · exact Brings.pure wire.sendable_none
    · split
      · exact Brings.later fun _ => Brings.pure wire.sendable_none
      next hmissing =>
        exact Brings.later fun _ =>
          Brings.pure (laws.sendable_missing hcompact (CompactBlock.length_missing_le hmissing) _)
      · exact Brings.pure (laws.sendable_getBlockByHash _)

theorem completeCompactBlock_brings (blockHash : BlockHash) (transactions : List IndexedBlockTransaction) :
    Brings wire.Sendable (completeCompactBlock paqus blockHash transactions) := by
  refine Brings.later fun taken => ?_
  split
  · exact Brings.pure (laws.sendable_getBlockByHash _)
  · refine Brings.later fun node => ?_
    split
    · exact Brings.later fun _ => Brings.pure wire.sendable_none
    · exact Brings.pure (laws.sendable_getBlockByHash _)

theorem sendable_compactTransactionsReply (hlimits : node.WithinLimits wire) (blockHash : BlockHash)
    (indexes : List Nat) : wire.Sendable (some (compactTransactionsReply paqus node blockHash indexes)) := by
  unfold compactTransactionsReply
  split
  · exact wire.sendable_reject _ (by decide)
  · split
    · exact wire.sendable_reject _ (by decide)
    next hnodup =>
      split
      · exact wire.sendable_reject _ (by decide)
      next hblock =>
        split
        · exact wire.sendable_reject _ (by decide)
        next hfound =>
          exact laws.sendable_compactTransactions (hlimits.cache_le hblock) (not_not.mp hnodup) hfound _

end

theorem dataReply_answers (node : Node F) (items : List InventoryItem) :
    node.Answers paqus wire (.getData items) (dataReply node items) := by
  refine .inr fun found h => ?_
  unfold dataReply at h
  dsimp only at h
  simp only [Node.requestedBytes]
  split at h
  next hblocks =>
    cases h
    rw [if_neg hblocks, size_blocks]
  next hblocks =>
    split at h
    next =>
      cases h
      rw [if_pos (not_not.mp hblocks), size_transactions]
    next => cases h

theorem reconcileReply_answers {epoch : Nat} {shortIds : List Nat} {reply : PeerMessage}
    (h : reconcileReply paqus node epoch shortIds = .ok reply) :
    node.Answers paqus wire (.reconcileMempool epoch shortIds) (some reply) := by
  unfold reconcileReply at h
  unfold Node.Answers Node.requestedBytes
  split at h
  next hinvalid =>
    cases h
    exact .inl ⟨wire.sendable_reject _ (by decide), if_pos hinvalid⟩
  next hvalid =>
    obtain ⟨missing, hmissing, h⟩ := Effect.except_bind_eq_ok.mp h
    cases h
    refine .inr ?_
    rintro found ⟨⟩
    simp only [if_neg hvalid, size_transactions, missingInBucket_eq hmissing]

theorem handlePeerMessage_answers (laws : WireLaws paqus api wire) (hlimits : node.WithinLimits wire)
    {message : PeerMessage} (hmessage : wire.Sendable (some message))
    {reply : Option PeerMessage} {after : Node F}
    (h : handlePeerMessage paqus api message node = .ok reply after) :
    node.Answers paqus wire message reply := by
  unfold handlePeerMessage at h
  rw [get_bind] at h
  cases message with
  | chain message =>
    obtain ⟨found, last, hrun, h⟩ := bind_eq_ok.mp h
    cases h
    exact handleMessage_answers laws hlimits message hrun
  | version version =>
    refine .inl ⟨?_, rfl⟩
    cases hversion : version.validateCompatibility api.params with
    | ok _ =>
      simp only [hversion] at h
      cases h
      exact laws.sendable_verAck _
    | error reason =>
      simp only [hversion] at h
      cases h
      exact wire.sendable_reject _ (by decide)
  | getSnapshotManifest height blockHash =>
    exact .inl ⟨snapshotManifestReply_brings laws _ _ _ _ _ h, rfl⟩
  | getSnapshotChunk height blockHash offset length =>
    exact .inl ⟨snapshotChunkReply_brings laws _ _ _ _ _ _ _ h, rfl⟩
  | inventory items =>
    refine .inl ⟨?_, rfl⟩
    cases h
    split
    · exact wire.sendable_none
    · exact WireApi.sendable_getData List.filter_sublist hmessage
  | getData items =>
    cases h
    exact dataReply_answers node items
  | transaction transaction | transactions transactions =>
    obtain ⟨_, _, _, h⟩ := bind_eq_ok.mp h
    cases h
    exact .inl ⟨wire.sendable_none, rfl⟩
  | getMempoolInventory =>
    obtain ⟨hashes, last, hhashes, h⟩ := bind_eq_ok.mp h
    cases h
    refine .inl ⟨laws.sendable_inventory ?_, rfl⟩
    rw [length_mapM (liftExcept_eq_ok.mp hhashes).1]
    exact hlimits.count_le
  | reconcileMempool epoch shortIds =>
    obtain ⟨found, last, hfound, h⟩ := bind_eq_ok.mp h
    cases h
    exact reconcileReply_answers (liftExcept_eq_ok.mp hfound).1
  | getPeers =>
    cases h
    refine .inl ⟨?_, rfl⟩
    rintro found ⟨⟩
    simp only [WireApi.message, size_variant, Value.sizeAll, Value.size, List.map_nil]
    decide
  | compactBlock compact =>
    exact .inl ⟨compactBlockReply_brings laws hmessage _ _ _ h, rfl⟩
  | getCompactBlockTransactions blockHash indexes =>
    cases h
    exact .inl ⟨sendable_compactTransactionsReply laws hlimits _ _, rfl⟩
  | compactBlockTransactions blockHash transactions =>
    exact .inl ⟨completeCompactBlock_brings laws _ _ _ _ _ h, rfl⟩
  | _ =>
    cases h
    exact .inl ⟨wire.sendable_none, rfl⟩

/-- The answer to a message can be sent exactly when the blocks or transactions that the message asks for fit
a frame. -/
theorem reply_written_iff (laws : WireLaws paqus api wire) {node after : Node F}
    {request : NetworkEnvelope PeerMessage} {reply : PeerMessage} (hlimits : node.WithinLimits wire)
    (hrequest : ∃ bytes, writeMessage (wire.codec api.params.networkMagic) request = .ok bytes)
    (hreply : handlePeerMessage paqus api request.message node = .ok (some reply) after) :
    (∃ bytes, writeMessage (wire.codec api.params.networkMagic)
        (.response api.params.networkMagic request.requestId reply) = .ok bytes) ↔
      node.requestedBytes paqus wire request.message ≤ maxNetworkMessageSize - (envelopeBytes + 5) := by
  have hsendable : wire.Sendable (some request.message) := by
    rintro message ⟨⟩
    exact writeMessage_ok_iff.mp hrequest
  rw [writeMessage_ok_iff]
  change envelopeBytes + (wire.message reply).size ≤ maxNetworkMessageSize ↔ _
  have hframe : envelopeBytes + 5 ≤ maxNetworkMessageSize := by decide
  obtain ⟨hsmall, hnone⟩ | hsize := handlePeerMessage_answers laws hlimits hsendable hreply
  · rw [hnone]
    exact iff_of_true (hsmall reply rfl) (Nat.zero_le _)
  · rw [hsize reply rfl]
    omega

namespace Reference

@[irreducible] def filling : List UInt8 := List.replicate 4194304 0

theorem length_filling : filling.length = 4194304 := by
  rw [filling, List.length_replicate]

/-- Each transaction carries 4 MiB. -/
def largeTransaction (transaction : SignedProtocolTransaction) : Value :=
  .record (.u64 transaction.signer) [.bytes filling]

def wireApi : WireApi where
  hash hash := .u32 hash
  header header := .record (.u64 header.height) [.u32 header.previousHash, .u32 header.stateRoot]
  block block := .record (.u64 block.height) [.vec (block.transactions.map largeTransaction)]
  transaction := largeTransaction
  coinbase coinbase := .record (.u64 coinbase.miner) [.u64 coinbase.amount]
  genesisAllocation allocation := .record (.u64 allocation.recipient) [.u64 allocation.amount]
  tryFromSlice _ := .error ⟨.invalidData, "Unexpected length of input"⟩

theorem size_largeTransaction (transaction : SignedProtocolTransaction) :
    (largeTransaction transaction).size = 4194316 := by
  rw [largeTransaction, Value.size, Value.size_u64, Value.sizeAll_eq, List.map_singleton, List.sum_singleton,
    Value.size_bytes, length_filling]

theorem size_wireApi_block (block : Block) : (wireApi.block block).size = 12 + block.transactions.length * 4194316 := by
  have hvec : (Value.vec (block.transactions.map largeTransaction)).size =
      4 + block.transactions.length * 4194316 := by
    simp [Value.size_vec_map, size_largeTransaction]
  rw [wireApi, Value.size, Value.size_u64, Value.sizeAll_eq, List.map_singleton, List.sum_singleton, hvec]
  omega

theorem wireApi_laws (depth : Nat) : WireLaws (protocol depth) peerApi wireApi where
  hash_le _ := by simp [wireApi]
  hashSize_le := show 4 ≤ 64 by decide
  header_le _ := by simp [wireApi, Value.size, Value.sizeAll]
  params_le := by decide
  transaction_ge transaction := by
    rw [show wireApi.transaction transaction = largeTransaction transaction from rfl, size_largeTransaction]
    omega
  block_ge block := by
    have hsum : wireApi.transactionsSize block.transactions = block.transactions.length * 4194316 := by
      simp [WireApi.transactionsSize, wireApi, size_largeTransaction]
    rw [size_wireApi_block, hsum]
    omega

def Small (node : Node ForkTree) : Prop :=
  (∀ entry ∈ node.ledger.chain.blocks.toList, entry.2.transactions.length ≤ 1) ∧
    (∀ entry ∈ node.cache.blocksByHash.toList, entry.2.transactions.length ≤ 1) ∧ node.mempool.values = []

instance (node : Node ForkTree) : Decidable (Small node) := inferInstanceAs (Decidable (_ ∧ _ ∧ _))

theorem Small.withinLimits {node : Node ForkTree} (h : Small node) : node.WithinLimits wireApi := by
  obtain ⟨hledger, hcache, hpool⟩ := h
  have hsize : ∀ block : Block, block.transactions.length ≤ 1 → (wireApi.block block).size ≤ maxBlockSize := by
    intro block hblock
    rw [size_wireApi_block]
    unfold maxBlockSize
    omega
  refine ⟨fun hfound => hsize _ ?_, fun hfound => hsize _ ?_, ?_, ?_⟩
  · exact hledger (_, _) (Std.ExtTreeMap.mem_toList_iff_getElem?_eq_some.mpr hfound)
  · exact hcache (_, _) (Std.ExtTreeMap.mem_toList_iff_getElem?_eq_some.mpr hfound)
  · rw [hpool]
    exact Nat.zero_le _
  · rw [hpool]
    exact Nat.zero_le _

def rangeRequest (start limit : Nat) : NetworkEnvelope PeerMessage :=
  ⟨peerApi.params.networkMagic, 5, 0, .chain (.getBlocksByHeightRange start limit)⟩

theorem rangeRequest_written (start limit : Nat) :
    ∃ bytes, writeMessage (wireApi.codec peerApi.params.networkMagic) (rangeRequest start limit) = .ok bytes := by
  rw [writeMessage_ok_iff]
  simp only [rangeRequest, WireApi.message, size_variant, Value.sizeAll, Value.size_u64, Value.size_u32]
  decide

def largeFirst : Tip := Tip.genesis.next 111 1 [transfer 501 1 0 2 30]

def largeSecond : Tip := largeFirst.next 112 1 [transfer 502 2 0 3 40]

theorem size_largeFirst : (wireApi.block largeFirst.block).size = 4194328 := by
  have hcount : largeFirst.block.transactions.length = 1 := by decide +kernel
  rw [size_wireApi_block, hcount]

theorem size_largeSecond : (wireApi.block largeSecond.block).size = 4194328 := by
  have hcount : largeSecond.block.transactions.length = 1 := by decide +kernel
  rw [size_wireApi_block, hcount]

theorem extended_small : ∃ node, Reachable (protocol 2) node ∧ Small node ∧
    heightRange node.ledger.block 1 2 = [largeFirst.block, largeSecond.block] ∧
    heightRange node.ledger.block 2 2 = [largeSecond.block] := by
  obtain ⟨node, hnode⟩ : ∃ node, sampleRun 2 [.applyBlock largeFirst.block, .applyBlock largeSecond.block] = .ok node :=
    exists_ok (by decide +kernel)
  exact ⟨node, sampleRun_reachable hnode, of_ok hnode (by decide +kernel)⟩

theorem lone_block_written : ∃ node reply, Reachable (protocol 2) node ∧ node.WithinLimits wireApi ∧
    handlePeerMessage (protocol 2) peerApi (rangeRequest 2 2).message node = .ok (some reply) node ∧
    ∃ bytes, writeMessage (wireApi.codec peerApi.params.networkMagic)
      (.response peerApi.params.networkMagic (rangeRequest 2 2).requestId reply) = .ok bytes := by
  obtain ⟨node, hreachable, hsmall, -, hrange⟩ := extended_small
  refine ⟨node, _, hreachable, hsmall.withinLimits, rfl, ?_⟩
  refine (reply_written_iff (wireApi_laws 2) hsmall.withinLimits (rangeRequest_written 2 2) rfl).mpr ?_
  show wireApi.blocksSize (heightRange node.ledger.block 2 2) ≤ _
  rw [hrange]
  simp only [WireApi.blocksSize, List.map_cons, List.map_nil, List.sum_cons, List.sum_nil, size_largeSecond]
  unfold maxNetworkMessageSize envelopeBytes
  omega

/-- Two blocks of 4 MiB do not fit a frame together, though each is smaller than a block may be. -/
theorem two_blocks_refused : ∃ node reply, Reachable (protocol 2) node ∧ node.WithinLimits wireApi ∧
    (∃ bytes, writeMessage (wireApi.codec peerApi.params.networkMagic) (rangeRequest 1 2) = .ok bytes) ∧
    handlePeerMessage (protocol 2) peerApi (rangeRequest 1 2).message node = .ok (some reply) node ∧
    writeMessage (wireApi.codec peerApi.params.networkMagic)
      (.response peerApi.params.networkMagic (rangeRequest 1 2).requestId reply) =
        .error .messageTooLarge := by
  obtain ⟨node, hreachable, hsmall, hrange, -⟩ := extended_small
  refine ⟨node, .chain (.blocks (heightRange node.ledger.block 1 2)), hreachable, hsmall.withinLimits,
    rangeRequest_written 1 2, rfl, ?_⟩
  have hsize : envelopeBytes + (wireApi.message (.chain (.blocks (heightRange node.ledger.block 1 2)))).size =
      8388681 := by
    rw [hrange, size_blocks]
    simp only [WireApi.blocksSize, List.map_cons, List.map_nil, List.sum_cons, List.sum_nil, size_largeFirst,
      size_largeSecond]
    unfold envelopeBytes
    omega
  apply writeMessage_refuses
  · refine Nat.lt_of_lt_of_eq ?_ hsize.symm
    unfold maxNetworkMessageSize
    omega
  · refine Nat.le_trans (Nat.le_of_eq hsize) ?_
    unfold u32Max
    omega

end Reference

end PaqusNetwork
