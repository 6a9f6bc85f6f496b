import PaqusNetwork.Network.Download
import PaqusNetwork.Network.Reconstruct

namespace PaqusNetwork

open Effect Numeric

variable {F : Type} (paqus : Paqus F)

def reconcileIdOf (epoch : Nat) (transaction : SignedProtocolTransaction) : Option Nat :=
  match paqus.codec.transactionHash transaction with
  | .ok hash => some (reconcileShortId paqus epoch hash)
  | .error _ => none

def inBucket (epoch shortId : Nat) : Bool := shortId % reconcileBuckets == epoch % reconcileBuckets

def bucketShortIds (epoch : Nat) (pool : Mempool) : List Nat :=
  (pool.values.filterMap (reconcileIdOf paqus epoch)).filter (inBucket epoch)

/-- The request of `sync_mempool_connection`: at most as many short ids as a peer takes, as an ordered
set. -/
def reconcileRequest (epoch : Nat) (pool : Mempool) : PeerMessage :=
  let shortIds := (bucketShortIds paqus epoch pool).take paqus.rules.maxBlockDecodeItems
  .reconcileMempool epoch (shortIds.foldl (fun set shortId => set.insert shortId ()) (∅ : BTreeMap Nat Unit)).keys

def wantedInBucket (epoch : Nat) (remote : List Nat) (transaction : SignedProtocolTransaction) : Bool :=
  match paqus.codec.transactionHash transaction with
  | .error _ => false
  | .ok hash => decide (reconcileShortId paqus epoch hash % reconcileBuckets = epoch % reconcileBuckets ∧
      reconcileShortId paqus epoch hash ∉ remote)

variable {paqus} {epoch : Nat} {pool : Mempool} {remote : List Nat} {transactions : List SignedProtocolTransaction}

theorem missingInBucket_eq {missing : List SignedProtocolTransaction}
    (h : missingInBucket paqus epoch remote transactions = .ok missing) :
    missing = transactions.filter (wantedInBucket paqus epoch remote) := by
  induction transactions generalizing missing with
  | nil =>
    cases h
    rfl
  | cons transaction rest ih =>
    rw [missingInBucket] at h
    obtain ⟨hash, hhash, h⟩ := except_bind_eq_ok.mp h
    obtain ⟨others, hrest, h⟩ := except_bind_eq_ok.mp h
    cases h
    rw [List.filter_cons, ← ih hrest]
    simp only [wantedInBucket, hhash, decide_eq_true_eq]

theorem missingInBucket_ok (epoch : Nat) (remote : List Nat)
    (h : ∀ transaction ∈ transactions, ∃ hash, paqus.codec.transactionHash transaction = .ok hash) :
    missingInBucket paqus epoch remote transactions =
      .ok (transactions.filter (wantedInBucket paqus epoch remote)) := by
  have hok : ∃ missing, missingInBucket paqus epoch remote transactions = .ok missing := by
    induction transactions with
    | nil => exact ⟨[], rfl⟩
    | cons transaction rest ih =>
      obtain ⟨hash, hhash⟩ := h transaction List.mem_cons_self
      obtain ⟨missing, hmissing⟩ := ih fun other hother => h other (List.mem_cons_of_mem _ hother)
      rw [missingInBucket, hhash, hmissing]
      exact ⟨_, rfl⟩
  obtain ⟨missing, hmissing⟩ := hok
  rw [hmissing, missingInBucket_eq hmissing]

theorem mem_keys_foldl_insert (ids : List Nat) (id : Nat) :
    id ∈ (ids.foldl (fun set id => set.insert id ()) (∅ : BTreeMap Nat Unit)).keys ↔ id ∈ ids := by
  rw [Std.ExtTreeMap.mem_keys, ← Std.ExtTreeMap.isSome_getElem?_iff_mem, OrderedMap.getElem?_foldl_insert]
  by_cases hmem : id ∈ ids
  · simp [hmem]
  · simp [hmem]

theorem nodup_keys (set : BTreeMap Nat Unit) : set.keys.Nodup :=
  Std.ExtTreeMap.distinct_keys.imp fun hne heq => hne (compare_eq_iff_eq.mpr heq)

def BucketId (paqus : Paqus F) (epoch : Nat) (transaction : SignedProtocolTransaction) (shortId : Nat) : Prop :=
  reconcileIdOf paqus epoch transaction = some shortId ∧ inBucket epoch shortId = true

theorem mem_bucketShortIds {shortId : Nat} :
    shortId ∈ bucketShortIds paqus epoch pool ↔
      ∃ transaction ∈ pool.values, BucketId paqus epoch transaction shortId := by
  unfold bucketShortIds BucketId
  rw [List.mem_filter, List.mem_filterMap]
  constructor
  · rintro ⟨⟨transaction, hmem, hid⟩, hbucket⟩
    exact ⟨transaction, hmem, hid, hbucket⟩
  · rintro ⟨transaction, hmem, hid, hbucket⟩
    exact ⟨⟨transaction, hmem, hid⟩, hbucket⟩

variable {transaction : SignedProtocolTransaction}

theorem wantedInBucket_iff :
    wantedInBucket paqus epoch remote transaction = true ↔
      ∃ shortId, BucketId paqus epoch transaction shortId ∧ shortId ∉ remote := by
  unfold wantedInBucket BucketId reconcileIdOf inBucket
  cases paqus.codec.transactionHash transaction with
  | error error => simp
  | ok hash =>
    simp only [decide_eq_true_eq, Option.some.injEq, beq_iff_eq]
    constructor
    · rintro ⟨hbucket, hnew⟩
      exact ⟨_, ⟨rfl, hbucket⟩, hnew⟩
    · rintro ⟨shortId, ⟨rfl, hbucket⟩, hnew⟩
      exact ⟨hbucket, hnew⟩

theorem Mempool.Built.hashed (h : pool.Built paqus) (hmem : transaction ∈ pool.values) :
    ∃ hash, paqus.codec.transactionHash transaction = .ok hash ∧ pool.contains hash = true := by
  obtain ⟨hash, hfound⟩ := Mempool.mem_values.mp hmem
  refine ⟨hash, (h.encoded hash transaction hfound).1, ?_⟩
  rw [Mempool.contains, Std.ExtTreeMap.contains_iff_mem, ← Std.ExtTreeMap.isSome_getElem?_iff_mem, hfound]
  rfl

/-- Two different transactions, one of each pool, have different short ids in the epoch. -/
def NoCollision (paqus : Paqus F) (epoch : Nat) (requester responder : Mempool) : Prop :=
  ∀ hash hash', requester.contains hash = true → responder.contains hash' = true → hash ≠ hash' →
    reconcileShortId paqus epoch hash ≠ reconcileShortId paqus epoch hash'

theorem reconcileRequest_eq (hbound : (bucketShortIds paqus epoch pool).length ≤ paqus.rules.maxBlockDecodeItems) :
    ∃ shortIds, reconcileRequest paqus epoch pool = .reconcileMempool epoch shortIds ∧ shortIds.Nodup ∧
      shortIds.length ≤ paqus.rules.maxBlockDecodeItems ∧
      ∀ shortId, shortId ∈ shortIds ↔ ∃ transaction ∈ pool.values, BucketId paqus epoch transaction shortId := by
  have hmem := mem_keys_foldl_insert (bucketShortIds paqus epoch pool)
  have hnodup := nodup_keys ((bucketShortIds paqus epoch pool).foldl (fun set id => set.insert id ()) ∅)
  refine ⟨_, by rw [reconcileRequest, List.take_of_length_le hbound], hnodup, ?_, fun shortId => ?_⟩
  · have hle := (List.subperm_of_subset hnodup fun id hid => (hmem id).mp hid).length_le
    exact Nat.le_trans hle hbound
  · rw [hmem, mem_bucketShortIds]

/-- The peer answers with exactly its transactions of the bucket whose short ids none of the requester's has,
each once. -/
theorem reconcile_exact (api : PeerApi) {epoch : Nat} {requester : Mempool} {responder : Node F}
    (hrequester : requester.Built paqus) (hresponder : responder.mempool.Built paqus)
    (hbound : (bucketShortIds paqus epoch requester).length ≤ paqus.rules.maxBlockDecodeItems) :
    ∃ transactions, handlePeerMessage paqus api (reconcileRequest paqus epoch requester) responder =
        .ok (some (.transactions transactions)) responder ∧
      transactions.Nodup ∧
      (∀ transaction, transaction ∈ transactions ↔ transaction ∈ responder.mempool.values ∧
        ∃ shortId, BucketId paqus epoch transaction shortId ∧
          ∀ other ∈ requester.values, ¬BucketId paqus epoch other shortId) ∧
      (NoCollision paqus epoch requester responder.mempool →
        ∀ transaction, transaction ∈ transactions ↔ transaction ∈ responder.mempool.values ∧
          ∃ hash, paqus.codec.transactionHash transaction = .ok hash ∧
            inBucket epoch (reconcileShortId paqus epoch hash) = true ∧ requester.contains hash = false) := by
  obtain ⟨shortIds, hrequest, hnodup, hcount, hnamed⟩ := reconcileRequest_eq hbound
  have hmissing := missingInBucket_ok epoch shortIds fun transaction hmem =>
    (hresponder.hashed hmem).imp fun _ h => h.1
  have hreply : reconcileReply paqus responder epoch shortIds =
      .ok (.transactions (responder.mempool.values.filter (wantedInBucket paqus epoch shortIds))) := by
    unfold reconcileReply
    rw [if_neg (by simp [hnodup]; omega), hmissing]
    rfl
  have hexact : ∀ transaction,
      transaction ∈ responder.mempool.values.filter (wantedInBucket paqus epoch shortIds) ↔
        transaction ∈ responder.mempool.values ∧ ∃ shortId, BucketId paqus epoch transaction shortId ∧
          ∀ other ∈ requester.values, ¬BucketId paqus epoch other shortId := by
    intro transaction
    rw [List.mem_filter, wantedInBucket_iff]
    simp only [hnamed, not_exists, not_and]
  refine ⟨_, ?_, ?_, hexact, fun hcollision transaction => ?_⟩
  · rw [hrequest]
    unfold handlePeerMessage
    rw [get_bind]
    simp only [hreply, liftExcept_ok]
    rfl
  · have hdistinct : responder.mempool.values.Nodup := CompactBlock.values_pairwise hresponder fun _ _ _ _ hne => hne
    exact hdistinct.filter _
  · rw [hexact]
    refine and_congr_right fun hmem => ?_
    obtain ⟨hash, hhash, hpooled⟩ := hresponder.hashed hmem
    have hid : reconcileIdOf paqus epoch transaction = some (reconcileShortId paqus epoch hash) := by
      rw [reconcileIdOf, hhash]
    constructor
    · rintro ⟨shortId, ⟨hshort, hbucket⟩, hnew⟩
      cases hid.symm.trans hshort
      refine ⟨hash, hhash, hbucket, Bool.eq_false_iff.mpr fun hheld => ?_⟩
      rw [Mempool.contains, Std.ExtTreeMap.contains_iff_mem, ← Std.ExtTreeMap.isSome_getElem?_iff_mem] at hheld
      obtain ⟨other, hfound⟩ := Option.isSome_iff_exists.mp hheld
      have hother := (hrequester.encoded hash other hfound).1
      refine hnew other (Mempool.mem_values.mpr ⟨hash, hfound⟩) ⟨?_, hbucket⟩
      rw [reconcileIdOf, hother]
    · rintro ⟨found, hfound, hbucket, hlacks⟩
      cases hhash.symm.trans hfound
      refine ⟨_, ⟨hid, hbucket⟩, fun other hother hsame => ?_⟩
      obtain ⟨otherHash, hotherHash, hheld⟩ := hrequester.hashed hother
      have hotherId := hsame.1
      rw [reconcileIdOf, hotherHash] at hotherId
      refine hcollision otherHash hash hheld hpooled (fun heq => ?_) (Option.some.inj hotherId)
      rw [heq, hlacks] at hheld
      cases hheld

namespace Reference

def otherTransfer : SignedProtocolTransaction := transfer 485 2 0 3 40

def fullerPool : Mempool := state (Mempool.insertValidated (protocol 2) 0 Tip.genesis.ledger otherTransfer relayPool)

theorem fullerPool_built : fullerPool.Built (protocol 2) := .step relayPool_built (.inserted 0 otherTransfer)

theorem reconcileShortId_eq (epoch hash : Nat) : reconcileShortId (protocol 2) epoch hash =
    fromLittleEndian (((protocol 2).codec.domainHash ("PAQUS_MEMPOOL_RECONCILE_V1".toUTF8.data.toList ++
      littleEndian 8 epoch ++ bigEndian 4 hash)).take 8) := by
  rw [reconcileShortId, byteArray_toList]
  rfl

theorem reconcile_sends_other : ∃ node transactions, sampleRun 2 [] = .ok node ∧
    handlePeerMessage (protocol 2) peerApi (reconcileRequest (protocol 2) 3 relayPool)
      { node with mempool := fullerPool } =
        .ok (some (.transactions transactions)) { node with mempool := fullerPool } ∧
    otherTransfer ∈ transactions ∧ pooledTransfer ∉ transactions := by
  obtain ⟨node, hnode⟩ : ∃ node, sampleRun 2 [] = .ok node := exists_ok (by decide +kernel)
  have hbound : (bucketShortIds (protocol 2) 3 relayPool).length ≤ (protocol 2).rules.maxBlockDecodeItems := by
    unfold bucketShortIds
    refine Nat.le_trans (List.length_filter_le _ _) (Nat.le_trans (List.length_filterMap_le _ _) ?_)
    rw [relayPool_values]
    decide
  obtain ⟨transactions, hreply, _, hexact, _⟩ := @reconcile_exact _ (protocol 2) peerApi 3 relayPool
    { node with mempool := fullerPool } relayPool_built fullerPool_built hbound
  refine ⟨node, transactions, hnode, hreply,
    (hexact otherTransfer).mpr ⟨?_, reconcileShortId (protocol 2) 3 485, ⟨rfl, ?_⟩, ?_⟩, fun hmem => ?_⟩
  · show otherTransfer ∈ fullerPool.values
    decide +kernel
  · rw [reconcileShortId_eq]
    decide +kernel
  · rw [relayPool_values]
    rintro other hother ⟨hid, _⟩
    cases List.mem_singleton.mp hother
    have hsame : reconcileShortId (protocol 2) 3 501 = reconcileShortId (protocol 2) 3 485 := Option.some.inj hid
    rw [reconcileShortId_eq, reconcileShortId_eq] at hsame
    exact absurd hsame (by decide +kernel)
  · obtain ⟨_, shortId, hbucket, hnone⟩ := (hexact pooledTransfer).mp hmem
    exact hnone pooledTransfer (by rw [relayPool_values]; exact List.mem_cons_self) hbucket

end Reference

end PaqusNetwork
