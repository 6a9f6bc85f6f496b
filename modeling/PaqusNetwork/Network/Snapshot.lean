import PaqusNetwork.Network.Message
import PaqusNetwork.Node.Worklist

namespace PaqusNetwork

open Effect Numeric RunLength

variable {expectedLength : Nat}

theorem decodeRuns_pairs (hsmall : expectedLength ≤ u64Max)
    {runs : List (Nat × UInt8)} (hruns : ∀ run ∈ runs, 0 < run.1 ∧ run.1 ≤ 255) (decoded : List UInt8)
    (hlength : decoded.length + (expand runs).length = expectedLength) :
    decodeRuns expectedLength (runs.flatMap fun run => [UInt8.ofNat run.1, run.2]) decoded =
      .ok (decoded ++ expand runs) := by
  induction runs generalizing decoded with
  | nil =>
    simp only [List.flatMap_nil, expand_nil, List.append_nil]
    rw [expand_nil, List.length_nil, Nat.add_zero] at hlength
    exact if_neg (not_not.mpr hlength)
  | cons run rest ih =>
    obtain ⟨hpos, hmax⟩ := hruns run List.mem_cons_self
    have hcount : (UInt8.ofNat run.1).toNat = run.1 := by
      rw [UInt8.toNat_ofNat']
      omega
    simp only [expand_cons, List.length_append, List.length_replicate] at hlength
    have hfits : saturatingAdd decoded.length run.1 = decoded.length + run.1 := saturatingAdd_eq (by omega)
    have hrest := ih (fun other h => hruns other (List.mem_cons_of_mem _ h))
      (decoded ++ List.replicate run.1 run.2) (by simp only [List.length_append, List.length_replicate]; omega)
    simp only [List.flatMap_cons, List.cons_append, List.nil_append, decodeRuns, hcount, hfits]
    rw [if_neg (by omega), hrest, expand_cons, List.append_assoc]

theorem length_pairs (runs : List (Nat × UInt8)) :
    (runs.flatMap fun run => [UInt8.ofNat run.1, run.2]).length = 2 * runs.length := by
  induction runs with
  | nil => rfl
  | cons run rest ih =>
    simp only [List.flatMap_cons, List.length_append, ih, List.length_cons, List.length_nil]
    omega

variable {chunk : List UInt8}

theorem compressChunk_rle (h : (encodeRuns chunk).length < chunk.length) :
    compressChunk chunk = (.rle, encodeRuns chunk) := if_pos h

theorem compressChunk_none (h : ¬(encodeRuns chunk).length < chunk.length) :
    compressChunk chunk = (.none, chunk) := if_neg h

theorem decompress_compressChunk (h : chunk.length ≤ snapshotChunkSize) :
    decompressChunk (compressChunk chunk).1 (compressChunk chunk).2 chunk.length = .ok chunk := by
  unfold decompressChunk
  rw [if_neg (Nat.not_lt.mpr h)]
  by_cases hshort : (encodeRuns chunk).length < chunk.length
  · have hsmall : chunk.length ≤ u64Max := Nat.le_trans h (by decide)
    have hexpand := expand_runs 255 chunk
    have hdecode := decodeRuns_pairs hsmall
      (fun run (hrun : run ∈ runs 255 chunk) => runs_bounded (by decide) hrun) [] (by rw [hexpand]; simp)
    have heven : (encodeRuns chunk).length % 2 = 0 := by
      rw [encodeRuns, length_pairs]
      omega
    rw [hexpand] at hdecode
    rw [compressChunk_rle hshort]
    dsimp only
    rw [if_neg (not_not.mpr heven)]
    exact hdecode
  · rw [compressChunk_none hshort]
    exact if_neg (not_not.mpr rfl)

theorem length_compressChunk_le (chunk : List UInt8) : (compressChunk chunk).2.length ≤ chunk.length := by
  by_cases hshort : (encodeRuns chunk).length < chunk.length
  · rw [compressChunk_rle hshort]
    exact Nat.le_of_lt hshort
  · rw [compressChunk_none hshort]

theorem compressChunk_ne_nil (h : chunk ≠ []) : (compressChunk chunk).2 ≠ [] := by
  by_cases hshort : (encodeRuns chunk).length < chunk.length
  · rw [compressChunk_rle hshort]
    intro hnil
    have hlength : 2 * (runs 255 chunk).length = 0 := by
      rw [← length_pairs]
      exact congrArg List.length hnil
    have hruns : runs 255 chunk = [] := List.length_eq_zero_iff.mp (by omega)
    have hexpand := expand_runs 255 chunk
    rw [hruns] at hexpand
    exact h hexpand.symm
  · rw [compressChunk_none hshort]
    exact h

variable {bytes result : List UInt8}

theorem length_decodeRuns {decoded : List UInt8}
    (h : decodeRuns expectedLength bytes decoded = .ok result) : result.length = expectedLength := by
  fun_induction decodeRuns expectedLength bytes decoded with
  | case1 => cases h
  | case2 count value rest decoded hgood ih => exact ih h
  | case3 => cases h
  | case4 bytes decoded heq =>
    cases h
    exact not_not.mp heq

theorem length_decompressChunk {compression : SnapshotCompression}
    (h : decompressChunk compression bytes expectedLength = .ok result) : result.length = expectedLength := by
  unfold decompressChunk at h
  split at h
  · cases h
  · split at h
    · split at h
      · cases h
      next heq =>
        cases h
        exact not_not.mp heq
    · split at h
      · cases h
      · exact length_decodeRuns h

/-- The pairs that are left and the bytes that are there, at each turn of the loop of `decompress_chunk`. -/
inductive Expansion (expectedLength : Nat) (bytes : List UInt8) : List UInt8 → List UInt8 → Prop
  | start (small : expectedLength ≤ snapshotChunkSize) (even : bytes.length % 2 = 0) :
      Expansion expectedLength bytes bytes []
  | pair {count value : UInt8} {rest decoded : List UInt8}
      (before : Expansion expectedLength bytes (count :: value :: rest) decoded)
      (fits : ¬(count.toNat = 0 ∨ saturatingAdd decoded.length count.toNat > expectedLength)) :
      Expansion expectedLength bytes rest (decoded ++ List.replicate count.toNat value)

section Expansion

variable {bytes rest decoded : List UInt8}

theorem Expansion.decodes (h : Expansion expectedLength bytes rest decoded) :
    decompressChunk .rle bytes expectedLength = decodeRuns expectedLength rest decoded := by
  induction h with
  | start small even =>
    unfold decompressChunk
    rw [if_neg (Nat.not_lt.mpr small)]
    exact if_neg (not_not.mpr even)
  | pair before fits ih => rw [ih, decodeRuns, if_neg fits]

theorem Expansion.length_le (h : Expansion expectedLength bytes rest decoded) :
    expectedLength ≤ snapshotChunkSize ∧ decoded.length ≤ expectedLength := by
  induction h with
  | start small even => exact ⟨small, Nat.zero_le _⟩
  | @pair count value rest decoded before fits ih =>
    refine ⟨ih.1, ?_⟩
    have hsize : snapshotChunkSize < u64Max := by decide
    have hsmall := ih.1
    rw [not_or, saturatingAdd] at fits
    rw [List.length_append, List.length_replicate]
    omega

end Expansion

/-- A chunk comes back from its compressed form, which is not longer, and whatever is expanded has the
expected length. -/
theorem decompressChunk_inverse :
    (∀ chunk : List UInt8, chunk.length ≤ snapshotChunkSize →
      decompressChunk (compressChunk chunk).1 (compressChunk chunk).2 chunk.length = .ok chunk ∧
        (compressChunk chunk).2.length ≤ chunk.length ∧ (chunk ≠ [] → (compressChunk chunk).2 ≠ [])) ∧
    ∀ (compression : SnapshotCompression) (bytes : List UInt8) (expectedLength : Nat),
      (∀ result, decompressChunk compression bytes expectedLength = .ok result → result.length = expectedLength) ∧
      ∀ rest decoded, Expansion expectedLength bytes rest decoded →
        decoded.length ≤ expectedLength ∧
          decompressChunk .rle bytes expectedLength = decodeRuns expectedLength rest decoded :=
  ⟨fun chunk h => ⟨decompress_compressChunk h, length_compressChunk_le chunk, compressChunk_ne_nil⟩,
    fun _ _ _ => ⟨fun _ h => length_decompressChunk h, fun _ _ h => ⟨h.length_le.2, h.decodes⟩⟩⟩

theorem decompressChunk_inverse_run :
    compressChunk [7, 7, 7, 7, 9] = (.rle, [4, 7, 1, 9]) ∧
      decompressChunk .rle [4, 7, 1, 9] 5 = .ok [7, 7, 7, 7, 9] := by
  have hcompressed : compressChunk [7, 7, 7, 7, 9] = (.rle, [4, 7, 1, 9]) := by decide
  have hinverse := (decompressChunk_inverse.1 [7, 7, 7, 7, 9] (by decide)).1
  rw [hcompressed] at hinverse
  exact ⟨hcompressed, hinverse⟩

variable {F : Type} {paqus : Paqus F} {api : PeerApi}

/-- A cached snapshot is that of the active ledger. -/
def SnapshotFresh (api : PeerApi) (node : Node F) : Prop :=
  ∀ tip bytes, node.snapshotCache = some (tip, bytes) →
    node.ledger.tipHash = some tip ∧ api.snapshotPaqusBytes node.ledger = .ok bytes

theorem connecting_snapshotFresh : Connecting paqus (SnapshotFresh (F := F) api) where
  storage _ h := h
  mempool _ h := h
  clockReads _ h := h
  ledger _ _ := fun _ _ hcached => by cases hcached
  forkChoice _ h := h
  genesisAccounts _ h := h
  cache _ h := h
  reorgsTotal _ h := h

theorem served_snapshotFresh : Served paqus (SnapshotFresh (F := F) api) where
  clockReads _ h := h
  mempool _ h := h
  retried := connecting_snapshotFresh.toStable.retryRollbackIssue_keeps
  connect block node h := connecting_snapshotFresh.connectBlock_keeps block _ h
  prune now node h := by
    obtain ⟨orphans, index, heq⟩ := foldl_removeOrphan_eq (expiredOrphans node now) node
    rw [pruneExpiredOrphans_apply, state_ok, heq]
    exact h
  cache block node h := by
    obtain ⟨_, _, _, _, _, _, heq⟩ := cacheOrphanBlock_state paqus block node
    rw [heq]
    exact h
  taken _ h := h
  indexed _ h := h
  counted _ h := h
  requested _ _ _ h := h
  staged _ h := h

def Node.cachingSnapshot (node : Node F) (tip : BlockHash) (bytes : List UInt8) : Node F :=
  { node with snapshotCache := some (tip, bytes) }

variable {node : Node F}

theorem snapshotBytes_fresh (hfresh : SnapshotFresh api node) {tip : BlockHash}
    (htip : node.ledger.tipHash = some tip) (hbytes : api.snapshotPaqusBytes node.ledger = .ok bytes) :
    snapshotBytes api node = .ok bytes (node.cachingSnapshot tip bytes) := by
  unfold snapshotBytes
  rw [get_bind, htip]
  change (if node.snapshotCache.all (·.1 != tip) = true then _ else _ : NodeM F (List UInt8)) node = _
  cases hcache : node.snapshotCache with
  | none =>
    simp only [Option.all_none, if_true]
    rw [hbytes]
    rfl
  | some cached =>
    obtain ⟨hcachedTip, hcachedBytes⟩ := hfresh cached.1 cached.2 hcache
    obtain rfl : cached.1 = tip := Option.some.inj (hcachedTip.symm.trans htip)
    obtain rfl : cached.2 = bytes := Except.ok.inj (hcachedBytes.symm.trans hbytes)
    have hsame : node.cachingSnapshot cached.1 cached.2 = node := by
      unfold Node.cachingSnapshot
      rw [← hcache]
    simp only [Option.all_some, bne_self_eq_false, Bool.false_eq_true, if_false, hsame]
    rw [get_bind, hcache]
    rfl

theorem snapshotBytes_keeps : Keeps (SnapshotFresh (F := F) api) (snapshotBytes api) := by
  intro node h
  cases htip : node.ledger.tipHash with
  | none =>
    unfold snapshotBytes
    rw [get_bind, htip]
    exact h
  | some tip =>
    cases hbytes : api.snapshotPaqusBytes node.ledger with
    | ok bytes =>
      rw [snapshotBytes_fresh h htip hbytes, state_ok]
      rintro _ _ ⟨⟩
      exact ⟨htip, hbytes⟩
    | error error =>
      have hcache : node.snapshotCache = none := by
        cases hcached : node.snapshotCache with
        | none => rfl
        | some cached =>
          have hcontra := (h cached.1 cached.2 hcached).2
          rw [hbytes] at hcontra
          cases hcontra
      unfold snapshotBytes
      rw [get_bind, htip]
      change SnapshotFresh api (state ((if node.snapshotCache.all (·.1 != tip) = true then _ else _ :
        NodeM F (List UInt8)) node))
      rw [hcache]
      simp only [Option.all_none, if_true]
      rw [hbytes]
      exact h

section Messages

variable {J : Node F → Prop} (hJ : Served paqus J)

theorem onNode_keeps {α : Type} {program : NodeM F α} (h : Keeps J program) : Keeps J (onNode program) := by
  intro node hnode
  rw [onNode, state_focus]
  exact h node hnode

include hJ

theorem Served.applyReceived_keeps (blocks : List Block) : Keeps J (applyReceived paqus blocks) := by
  induction blocks with
  | nil => exact Keeps.pure _
  | cons block rest ih =>
    exact (onNode_keeps (hJ.applyBlock_keeps block)).bind fun _ => ih

theorem Served.submitReceived_keeps (transactions : List SignedProtocolTransaction) :
    Keeps J (submitReceived paqus transactions) := by
  have hsubmit : ∀ transaction, Keeps J (discard (onNode (submitProtocolTransaction paqus transaction))) :=
    fun transaction => Yields.discard
      (onNode_keeps (submitProtocolTransaction_keeps hJ.mempool hJ.clockReads transaction))
  induction transactions with
  | nil => exact Keeps.pure _
  | cons transaction rest ih =>
    unfold submitReceived
    refine Keeps.get.bind fun node => ?_
    split
    · exact (Keeps.runIf _ (hsubmit transaction)).bind fun _ => ih
    · exact (hsubmit transaction).bind fun _ => ih

theorem Served.handleMessage_keeps (message : NetworkMessage) : Keeps J (handleMessage paqus message) := by
  unfold handleMessage
  refine Keeps.get.bind fun node => ?_
  cases message with
  | block block => exact (hJ.applyReceived_keeps _).bind fun _ => Keeps.pure _
  | blocks blocks => exact (hJ.applyReceived_keeps _).bind fun _ => Keeps.pure _
  | getBlockByHash hash =>
    dsimp only
    split
    · exact Keeps.pure _
    · exact Keeps.pure _
  | _ => exact Keeps.pure _

theorem Served.handlePeerMessage_keeps (hsnapshot : Keeps J (snapshotBytes api)) (message : PeerMessage) :
    Keeps J (handlePeerMessage paqus api message) := by
  have happly : ∀ block, Keeps J (onNode (applyBlock paqus block)) :=
    fun block => onNode_keeps (hJ.applyBlock_keeps block)
  unfold handlePeerMessage
  refine Keeps.get.bind fun node => ?_
  cases message with
  | chain message => exact (hJ.handleMessage_keeps message).bind fun _ => Keeps.pure _
  | version version =>
    dsimp only
    split
    · exact Keeps.pure _
    · exact Keeps.pure _
  | getSnapshotManifest height blockHash =>
    refine Keeps.get.bind fun node => ?_
    split
    · exact Keeps.pure _
    · exact (onNode_keeps hsnapshot).bind fun _ => Keeps.pure _
  | getSnapshotChunk height blockHash offset length =>
    refine Keeps.get.bind fun node => ?_
    split
    · exact Keeps.pure _
    · exact (onNode_keeps hsnapshot).bind fun _ => Keeps.pure _
  | transaction transaction => exact (hJ.submitReceived_keeps _).bind fun _ => Keeps.pure _
  | transactions transactions => exact (hJ.submitReceived_keeps _).bind fun _ => Keeps.pure _
  | getMempoolInventory => exact Keeps.bind_liftExcept fun _ _ => Keeps.pure _
  | reconcileMempool epoch shortIds => exact Keeps.bind_liftExcept fun _ _ => Keeps.pure _
  | compactBlock compact =>
    refine Keeps.get.bind fun node => ?_
    split
    · exact Keeps.pure _
    · split
      · exact Keeps.pure _
      · split
        · exact (happly _).bind fun _ => Keeps.pure _
        · exact Keeps.bind (onNode_keeps fun _ h => hJ.staged _ h) fun _ => Keeps.pure _
        · exact Keeps.pure _
  | compactBlockTransactions blockHash transactions =>
    refine Keeps.bind (onNode_keeps fun _ h => hJ.staged _ h) fun taken => ?_
    split
    · exact Keeps.pure _
    · refine Keeps.get.bind fun node => ?_
      split
      · exact (happly _).bind fun _ => Keeps.pure _
      · exact Keeps.pure _
  | _ => exact Keeps.pure _

end Messages

/-- The states of a node after any calls and messages. -/
inductive Serves (paqus : Paqus F) (api : PeerApi) (start : Node F) : Node F → Prop
  | start : Serves paqus api start start
  | call {node : Node F} (call : NodeCall) : Serves paqus api start node →
      Serves paqus api start (call.after paqus node)
  | message {node : Node F} (message : PeerMessage) : Serves paqus api start node →
      Serves paqus api start (state (handlePeerMessage paqus api message node))

theorem Serves.trans {first second third : Node F} (h : Serves paqus api first second)
    (h' : Serves paqus api second third) : Serves paqus api first third := by
  induction h' with
  | start => exact h
  | call call _ ih => exact .call call ih
  | message message _ ih => exact .message message ih

variable {start : Node F}

theorem Serves.served {J : Node F → Prop} (hJ : Served paqus J) (hsnapshot : Keeps J (snapshotBytes api))
    (h : Serves paqus api start node) (hstart : J start) : J node := by
  induction h with
  | start => exact hstart
  | call call _ ih => exact hJ.after_keeps ih call
  | message message _ ih => exact hJ.handlePeerMessage_keeps hsnapshot message _ ih

theorem Serves.snapshotFresh (h : Serves paqus api start node)
    (hstart : start.snapshotCache = none) : SnapshotFresh api node := by
  refine h.served served_snapshotFresh snapshotBytes_keeps fun tip bytes hcached => ?_
  rw [hstart] at hcached
  cases hcached

end PaqusNetwork
