import PaqusNetwork.Dialogue
import PaqusNetwork.Network.Snapshot
import PaqusNetwork.Reference.Sample

namespace PaqusNetwork

open Effect Numeric Dialogue

abbrev PeerDialogue (α : Type) := Dialogue PeerMessage PeerMessage String α

def fetchChunk (height : Nat) (blockHash : BlockHash) (capacity chunkSize : Nat) (snapshot : List UInt8) :
    PeerDialogue (List UInt8) := do
  let offset := snapshot.length
  let remaining := capacity - snapshot.length
  let length := min remaining chunkSize
  match ← .ask (.getSnapshotChunk height blockHash offset length) with
  | .snapshotChunk chunkHeight chunkHash chunkOffset compression uncompressedLength bytes =>
    if chunkHeight = height ∧ chunkHash = blockHash ∧ chunkOffset = offset ∧ bytes ≠ [] ∧
        uncompressedLength = length ∧ bytes.length ≤ length then
      let decoded ← .finished (decompressChunk compression bytes uncompressedLength)
      return snapshot ++ decoded
    else .fail "selected peer returned an invalid snapshot chunk"
  | _ => .fail "selected peer returned an invalid snapshot chunk"

def fetchChunks (height : Nat) (blockHash : BlockHash) (capacity chunkSize : Nat) :
    Nat → List UInt8 → PeerDialogue (Option (List UInt8))
  | 0, snapshot => return if snapshot.length < capacity then none else some snapshot
  | fuel + 1, snapshot =>
    if snapshot.length < capacity then do
      let next ← fetchChunk height blockHash capacity chunkSize snapshot
      fetchChunks height blockHash capacity chunkSize fuel next
    else return some snapshot

/-- The part of `download_authenticated_snapshot` after the handshake. A chunk is not empty, so the size
bounds the turns. -/
def downloadSnapshot (api : PeerApi) (tip : TipInfo) : PeerDialogue (Option (List UInt8)) := do
  match ← .ask (.getSnapshotManifest tip.height tip.hash) with
  | .snapshotManifest height blockHash size contentHash chunkSize =>
    if height ≠ tip.height ∨ blockHash ≠ tip.hash ∨ size = 0 ∨ size > maxFastSyncBundleSize ∨
        chunkSize = 0 ∨ chunkSize > snapshotChunkSize then
      .fail "selected peer returned an invalid snapshot manifest"
    else
      match ← fetchChunks height blockHash size chunkSize size [] with
      | none => return none
      | some snapshot =>
        if snapshot.length ≠ size ∨ api.artifactPayloadHash snapshot ≠ contentHash then
          .fail "downloaded snapshot content hash mismatch"
        else return some snapshot
  | _ => .fail "selected peer did not return a snapshot manifest"

/-- What the client holds before each turn of the loop that starts in a state of the peer. -/
inductive Holds {σ : Type} (request : PeerMessage → EStateM String σ PeerMessage) (height : Nat)
    (blockHash : BlockHash) (capacity chunkSize : Nat) (start : σ) : σ → List UInt8 → Prop
  | empty : Holds request height blockHash capacity chunkSize start start []
  | chunk {s s' : σ} {snapshot next : List UInt8} :
      Holds request height blockHash capacity chunkSize start s snapshot → snapshot.length < capacity →
      (fetchChunk height blockHash capacity chunkSize snapshot).run request s = .ok next s' →
      Holds request height blockHash capacity chunkSize start s' next

/-- A node that answers requests, with their number so far. -/
structure Host (F : Type) where
  node : Node F
  requests : Nat

variable {F : Type}

def Host.ask (paqus : Paqus F) (api : PeerApi) (meanwhile : Nat → Node F → Node F) (message : PeerMessage) :
    EStateM String (Host F) PeerMessage := fun host =>
  match handlePeerMessage paqus api message (meanwhile host.requests host.node) with
  | .ok (some reply) node => .ok reply ⟨node, host.requests + 1⟩
  | .ok none node => .error "peer request timed out" ⟨node, host.requests + 1⟩
  | .error _ node => .error "peer request timed out" ⟨node, host.requests + 1⟩

/-- Between the requests the node may get any calls and messages that leave its ledger as it is. -/
def Steady (paqus : Paqus F) (api : PeerApi) (meanwhile : Nat → Node F → Node F) : Prop :=
  ∀ count node, Serves paqus api node (meanwhile count node) ∧ (meanwhile count node).ledger = node.ledger

/-- The host's ledger has the tip and the snapshot, and no other snapshot is cached. -/
structure Host.Offers (api : PeerApi) (host : Host F) (height : Nat) (blockHash : BlockHash)
    (bytes : List UInt8) : Prop where
  tipHeight : host.node.ledger.tipHeight = some height
  tipHash : host.node.ledger.tipHash = some blockHash
  snapshot : api.snapshotPaqusBytes host.node.ledger = .ok bytes
  fresh : SnapshotFresh api host.node

variable {paqus : Paqus F} {api : PeerApi} {meanwhile : Nat → Node F → Node F} {tip : TipInfo} {fuel : Nat}

section Any

variable {σ : Type} {request : PeerMessage → EStateM String σ PeerMessage} {height : Nat}
  {blockHash : BlockHash} {capacity chunkSize : Nat} {s s' : σ} {snapshot : List UInt8}

theorem fetchChunk_ok {next : List UInt8}
    (h : (fetchChunk height blockHash capacity chunkSize snapshot).run request s = .ok next s') :
    ∃ decoded, next = snapshot ++ decoded ∧ decoded.length = min (capacity - snapshot.length) chunkSize := by
  unfold fetchChunk at h
  rw [run_bind, run_ask] at h
  obtain ⟨reply, middle, _, hreply⟩ := bind_eq_ok.mp h
  cases reply with
  | snapshotChunk chunkHeight chunkHash chunkOffset compression uncompressedLength bytes =>
    dsimp only at hreply
    split at hreply
    next hvalid =>
      rw [run_bind] at hreply
      cases hdecoded : decompressChunk compression bytes uncompressedLength with
      | error error => rw [hdecoded] at hreply; cases hreply
      | ok decoded =>
        rw [hdecoded] at hreply
        have hlength := length_decompressChunk hdecoded
        cases hreply
        exact ⟨decoded, rfl, hlength.trans hvalid.2.2.2.2.1⟩
    next => cases hreply
  | _ => cases hreply

theorem Holds.length_le {start : σ} (h : Holds request height blockHash capacity chunkSize start s snapshot) :
    snapshot.length ≤ capacity := by
  induction h with
  | empty => exact Nat.zero_le _
  | chunk _ hless hfetch ih =>
    obtain ⟨decoded, rfl, hlength⟩ := fetchChunk_ok hfetch
    rw [List.length_append, hlength]
    omega

variable {result : Option (List UInt8)}

theorem fetchChunks_ok (hchunk : 0 < chunkSize)
    (hle : snapshot.length ≤ capacity) (hfuel : capacity ≤ snapshot.length + fuel)
    (h : (fetchChunks height blockHash capacity chunkSize fuel snapshot).run request s = .ok result s') :
    ∃ whole, result = some whole ∧ whole.length = capacity := by
  induction fuel generalizing snapshot s with
  | zero =>
    rw [fetchChunks, if_neg (by omega)] at h
    cases h
    exact ⟨snapshot, rfl, by omega⟩
  | succ fuel ih =>
    unfold fetchChunks at h
    split at h
    next hless =>
      rw [run_bind] at h
      obtain ⟨next, middle, hfetch, hrest⟩ := bind_eq_ok.mp h
      obtain ⟨decoded, rfl, hlength⟩ := fetchChunk_ok hfetch
      exact ih (by rw [List.length_append]; omega) (by rw [List.length_append]; omega) hrest
    next =>
      cases h
      exact ⟨snapshot, rfl, by omega⟩

theorem downloadSnapshot_ok (h : (downloadSnapshot api tip).run request s = .ok result s') :
    ∃ snapshot size contentHash chunkSize middle, result = some snapshot ∧
      request (.getSnapshotManifest tip.height tip.hash) s =
        .ok (.snapshotManifest tip.height tip.hash size contentHash chunkSize) middle ∧
      snapshot.length = size ∧ api.artifactPayloadHash snapshot = contentHash := by
  unfold downloadSnapshot at h
  rw [run_bind, run_ask] at h
  obtain ⟨reply, middle, hmanifest, hreply⟩ := bind_eq_ok.mp h
  cases reply with
  | snapshotManifest height blockHash size contentHash chunkSize =>
    dsimp only at hreply
    split at hreply
    next => cases hreply
    next hvalid =>
      simp only [not_or, not_not] at hvalid
      obtain ⟨rfl, rfl, _, _, hpos, _⟩ := hvalid
      rw [run_bind] at hreply
      obtain ⟨fetched, last, hfetch, hrest⟩ := bind_eq_ok.mp hreply
      obtain ⟨whole, rfl, hlength⟩ := fetchChunks_ok (by omega) (Nat.zero_le _) (by simp) hfetch
      dsimp only at hrest
      split at hrest
      next => cases hrest
      next hmatch =>
        simp only [not_or, not_not] at hmatch
        cases hrest
        exact ⟨whole, size, contentHash, chunkSize, middle, rfl, hmanifest, hmatch⟩
  | _ => cases hreply

end Any

section Honest

variable {host : Host F} {height : Nat} {blockHash : BlockHash} {bytes : List UInt8}

def Host.after (meanwhile : Nat → Node F → Node F) (host : Host F) (blockHash : BlockHash)
    (bytes : List UInt8) : Host F :=
  ⟨(meanwhile host.requests host.node).cachingSnapshot blockHash bytes, host.requests + 1⟩

theorem onNode_snapshotBytes {node : Node F} (hfresh : SnapshotFresh api node)
    (htip : node.ledger.tipHash = some blockHash) (hbytes : api.snapshotPaqusBytes node.ledger = .ok bytes) :
    onNode (snapshotBytes api) node = .ok bytes (node.cachingSnapshot blockHash bytes) :=
  focus_eq_ok.mpr ⟨_, snapshotBytes_fresh hfresh htip hbytes, rfl⟩

theorem Host.ask_reply {message reply : PeerMessage} {node : Node F}
    (h : handlePeerMessage paqus api message (meanwhile host.requests host.node) = .ok (some reply) node) :
    Host.ask paqus api meanwhile message host = .ok reply ⟨node, host.requests + 1⟩ := by
  unfold Host.ask
  rw [h]

variable {chunkSize : Nat}

def chunkCount (size chunkSize : Nat) : Nat := (size + chunkSize - 1) / chunkSize

theorem chunkCount_rest {rest : Nat} (hrest : 0 < rest) (hchunk : 0 < chunkSize) :
    chunkCount rest chunkSize = chunkCount (rest - min rest chunkSize) chunkSize + 1 := by
  unfold chunkCount
  by_cases hle : rest ≤ chunkSize
  · have hone : (rest + chunkSize - 1) / chunkSize = 1 := Nat.div_eq_of_lt_le (by omega) (by omega)
    have hzero : (0 + chunkSize - 1) / chunkSize = 0 := Nat.div_eq_of_lt (by omega)
    rw [Nat.min_eq_left hle, Nat.sub_self, hone, hzero]
  · rw [Nat.min_eq_right (by omega), ← Nat.add_div_right _ hchunk]
    congr 1
    omega

variable (hsteady : Steady paqus api meanwhile) (h : host.Offers api height blockHash bytes)

include hsteady h

theorem Host.Offers.still :
    (Host.mk (meanwhile host.requests host.node) host.requests).Offers api height blockHash bytes := by
  obtain ⟨hserves, hledger⟩ := hsteady host.requests host.node
  refine ⟨?_, ?_, ?_, hserves.served served_snapshotFresh snapshotBytes_keeps h.fresh⟩
  · exact (congrArg Ledger.tipHeight hledger).trans h.tipHeight
  · exact (congrArg Ledger.tipHash hledger).trans h.tipHash
  · exact (congrArg api.snapshotPaqusBytes hledger).trans h.snapshot

theorem Host.Offers.after : (host.after meanwhile blockHash bytes).Offers api height blockHash bytes := by
  obtain ⟨htipHeight, htipHash, hsnapshot, _⟩ := h.still hsteady
  refine ⟨htipHeight, htipHash, hsnapshot, fun tip cached heq => ?_⟩
  cases heq
  exact ⟨htipHash, hsnapshot⟩

theorem Host.ask_manifest :
    Host.ask paqus api meanwhile (.getSnapshotManifest height blockHash) host =
      .ok (.snapshotManifest height blockHash bytes.length (api.artifactPayloadHash bytes) snapshotChunkSize)
        (host.after meanwhile blockHash bytes) := by
  obtain ⟨htipHeight, htipHash, hsnapshot, hfresh⟩ := h.still hsteady
  refine Host.ask_reply ?_
  change snapshotManifestReply api height blockHash _ = _
  unfold snapshotManifestReply
  rw [get_bind, if_neg (by simp only [htipHeight, htipHash]; simp),
    bind_ok (onNode_snapshotBytes hfresh htipHash hsnapshot)]
  rfl

theorem Host.ask_chunk {offset length : Nat} (hpos : 0 < length) (hmax : length ≤ snapshotChunkSize)
    (hend : offset + length ≤ bytes.length) (hsmall : bytes.length ≤ u64Max) :
    Host.ask paqus api meanwhile (.getSnapshotChunk height blockHash offset length) host =
      .ok (.snapshotChunk height blockHash offset (compressChunk ((bytes.drop offset).take length)).1 length
        (compressChunk ((bytes.drop offset).take length)).2) (host.after meanwhile blockHash bytes) := by
  obtain ⟨htipHeight, htipHash, hsnapshot, hfresh⟩ := h.still hsteady
  have hrange : min (saturatingAdd offset length) bytes.length = offset + length := by
    rw [saturatingAdd_eq (by omega)]
    omega
  have hslice : (bytes.take (offset + length)).drop offset = (bytes.drop offset).take length := by
    rw [List.drop_take, Nat.add_sub_cancel_left]
  have hcount : ((bytes.drop offset).take length).length = length := by
    rw [List.length_take, List.length_drop]
    omega
  refine Host.ask_reply ?_
  change snapshotChunkReply api height blockHash offset length _ = _
  unfold snapshotChunkReply
  rw [get_bind, if_neg (by simp only [htipHeight, htipHash]; simp; omega),
    bind_ok (onNode_snapshotBytes hfresh htipHash hsnapshot)]
  unfold snapshotChunkOf
  rw [if_neg (by omega), hrange, hslice]
  dsimp only
  rw [hcount]
  rfl

theorem fetchChunk_honest (hchunk : 0 < chunkSize) (hmax : chunkSize ≤ snapshotChunkSize)
    (hsmall : bytes.length ≤ u64Max) {offset : Nat} (hless : offset < bytes.length) :
    (fetchChunk height blockHash bytes.length chunkSize (bytes.take offset)).run (Host.ask paqus api meanwhile) host =
      .ok (bytes.take (offset + min (bytes.length - offset) chunkSize))
        (host.after meanwhile blockHash bytes) := by
  have hoffset : (bytes.take offset).length = offset := by
    rw [List.length_take]
    omega
  generalize hlength : min (bytes.length - offset) chunkSize = length
  have hask := @Host.ask_chunk F paqus api meanwhile host height blockHash bytes hsteady h offset length
    (by omega) (by omega) (by omega) hsmall
  generalize hpiece : (bytes.drop offset).take length = piece at hask
  have hcount : piece.length = length := by
    rw [← hpiece, List.length_take, List.length_drop]
    omega
  have hne : piece ≠ [] := List.ne_nil_of_length_pos (by omega)
  have hdecode := @decompress_compressChunk piece (by omega)
  have hvalid := compressChunk_ne_nil hne
  have hshort := length_compressChunk_le piece
  rw [hcount] at hdecode hshort
  have hwhole : bytes.take offset ++ piece = bytes.take (offset + length) := by
    rw [← hpiece, ← List.take_add]
  unfold fetchChunk
  dsimp only
  rw [hoffset, hlength, run_bind, run_ask, bind_ok hask]
  dsimp only
  rw [if_pos ⟨rfl, rfl, rfl, hvalid, rfl, hshort⟩, hdecode, ← hwhole]
  rfl

omit h in
theorem fetchChunks_honest (hchunk : 0 < chunkSize)
    (hmax : chunkSize ≤ snapshotChunkSize) (hsmall : bytes.length ≤ u64Max) {offset : Nat}
    (hfuel : bytes.length ≤ offset + fuel) (hle : offset ≤ bytes.length)
    (h : host.Offers api height blockHash bytes) :
    ∃ last, (fetchChunks height blockHash bytes.length chunkSize fuel (bytes.take offset)).run
        (Host.ask paqus api meanwhile) host = .ok (some bytes) last ∧
      last.requests = host.requests + chunkCount (bytes.length - offset) chunkSize := by
  have hoffset : (bytes.take offset).length = offset := by
    rw [List.length_take]
    omega
  have hzero : chunkCount 0 chunkSize = 0 := Nat.div_eq_of_lt (by omega)
  have hdone : offset = bytes.length → bytes.take offset = bytes := fun heq => by
    rw [heq, List.take_length]
  induction fuel generalizing offset host with
  | zero =>
    have heq : offset = bytes.length := by omega
    refine ⟨host, ?_, by rw [heq, Nat.sub_self, hzero, Nat.add_zero]⟩
    rw [fetchChunks, if_neg (by omega), hdone heq]
    rfl
  | succ fuel ih =>
    unfold fetchChunks
    rw [hoffset]
    by_cases hless : offset < bytes.length
    · generalize hnext : offset + min (bytes.length - offset) chunkSize = next
      have hfetch := fetchChunk_honest hsteady h hchunk hmax hsmall hless
      rw [hnext] at hfetch
      obtain ⟨last, hlast, hcount⟩ := @ih _ next (by omega) (by omega) (h.after hsteady)
        (by rw [List.length_take]; omega) (fun heq => by rw [heq, List.take_length])
      refine ⟨last, ?_, ?_⟩
      · rw [if_pos hless, run_bind, bind_ok hfetch]
        exact hlast
      · have hrest : bytes.length - next = bytes.length - offset - min (bytes.length - offset) chunkSize := by omega
        rw [hcount, hrest, chunkCount_rest (show 0 < bytes.length - offset by omega) hchunk]
        simp only [Host.after]
        omega
    · have heq : offset = bytes.length := by omega
      refine ⟨host, ?_, by rw [heq, Nat.sub_self, hzero, Nat.add_zero]⟩
      rw [if_neg hless, hdone heq]
      rfl

omit h in
theorem downloadSnapshot_honest (h : host.Offers api tip.height tip.hash bytes) (hpos : 0 < bytes.length)
    (hmax : bytes.length ≤ maxFastSyncBundleSize) :
    ∃ last, (downloadSnapshot api tip).run (Host.ask paqus api meanwhile) host = .ok (some bytes) last ∧
      last.requests = host.requests + 1 + chunkCount bytes.length snapshotChunkSize := by
  have hsmall : bytes.length ≤ u64Max := Nat.le_trans hmax (by decide)
  obtain ⟨last, hlast, hcount⟩ := fetchChunks_honest hsteady (by decide) (Nat.le_refl _) hsmall
    (show bytes.length ≤ 0 + bytes.length by omega) (Nat.zero_le _) (h.after hsteady)
  refine ⟨last, ?_, hcount⟩
  have hbound : ¬(snapshotChunkSize = 0 ∨ snapshotChunkSize > snapshotChunkSize) := by decide
  unfold downloadSnapshot
  rw [run_bind, run_ask, bind_ok (Host.ask_manifest hsteady h)]
  dsimp only
  rw [if_neg (by simp only [ne_eq, not_true_eq_false, false_or, not_or] at hbound ⊢; omega), run_bind]
  change ((fetchChunks _ _ _ _ _ (bytes.take 0)).run _ >>= _) _ = _
  rw [bind_ok hlast]
  dsimp only
  rw [if_neg (by simp)]
  rfl

end Honest

/-- A node that has the snapshot of its tip, since it started without a cached one. -/
structure Host.Snapshot (paqus : Paqus F) (api : PeerApi) (host : Host F) (tip : TipInfo)
    (bytes : List UInt8) : Prop where
  serves : ∃ start : Node F, start.snapshotCache = none ∧ Serves paqus api start host.node
  tipHeight : host.node.ledger.tipHeight = some tip.height
  tipHash : host.node.ledger.tipHash = some tip.hash
  snapshot : api.snapshotPaqusBytes host.node.ledger = .ok bytes
  nonempty : 0 < bytes.length
  bounded : bytes.length ≤ maxFastSyncBundleSize

theorem Host.Snapshot.offers {host : Host F} {bytes : List UInt8}
    (h : host.Snapshot paqus api tip bytes) : host.Offers api tip.height tip.hash bytes := by
  obtain ⟨start, hstart, hserves⟩ := h.serves
  exact ⟨h.tipHeight, h.tipHash, h.snapshot, hserves.snapshotFresh hstart⟩

/-- A host whose ledger does not change gives its snapshot in one request for each chunk; from any peer, a
download that succeeds has the size and the content hash of the manifest. -/
theorem downloadSnapshot_exact (paqus : Paqus F) (api : PeerApi) :
    (∀ meanwhile (host : Host F) (tip : TipInfo) bytes, Steady paqus api meanwhile →
      host.Snapshot paqus api tip bytes →
        (∃ last, (downloadSnapshot api tip).run (Host.ask paqus api meanwhile) host = .ok (some bytes) last ∧
          last.requests = host.requests + 1 + chunkCount bytes.length snapshotChunkSize) ∧
        ∀ chunkSize, 0 < chunkSize → chunkSize ≤ snapshotChunkSize →
          ∃ last, (fetchChunks tip.height tip.hash bytes.length chunkSize bytes.length []).run
              (Host.ask paqus api meanwhile) host = .ok (some bytes) last ∧
            last.requests = host.requests + chunkCount bytes.length chunkSize) ∧
    ∀ (σ : Type) (request : PeerMessage → EStateM String σ PeerMessage),
      (∀ tip s result s', (downloadSnapshot api tip).run request s = .ok result s' →
        ∃ snapshot size contentHash chunkSize middle, result = some snapshot ∧
          request (.getSnapshotManifest tip.height tip.hash) s =
            .ok (.snapshotManifest tip.height tip.hash size contentHash chunkSize) middle ∧
          snapshot.length = size ∧ api.artifactPayloadHash snapshot = contentHash) ∧
      ∀ height blockHash size chunkSize start s snapshot,
        Holds request height blockHash size chunkSize start s snapshot → snapshot.length ≤ size := by
  refine ⟨fun meanwhile host tip bytes hsteady hhost => ⟨?_, fun chunkSize hpos hmax => ?_⟩,
    fun σ request => ⟨fun tip s result s' h => downloadSnapshot_ok h, fun _ _ _ _ _ _ _ h => h.length_le⟩⟩
  · exact downloadSnapshot_honest hsteady hhost.offers hhost.nonempty hhost.bounded
  · have hsmall : bytes.length ≤ u64Max := Nat.le_trans hhost.bounded (by decide)
    have hall := fetchChunks_honest hsteady hpos hmax hsmall (show bytes.length ≤ 0 + bytes.length by omega)
      (Nat.zero_le _) hhost.offers
    rw [List.take_zero, Nat.sub_zero] at hall
    exact hall

namespace Reference

def peerApi : PeerApi where
  params := ⟨1, 7, "paqus", "test", "sha3", "wbda", Vector.replicate 4 0⟩
  snapshotPaqusBytes _ := .ok [9, 9, 9, 9, 3]
  artifactPayloadHash bytes := bytes.foldl (fun hash byte => hash * 31 + byte.toNat) 7

theorem downloadSnapshot_fresh : ∃ node, sampleRun 2 [] = .ok node ∧
    (∃ last, (downloadSnapshot peerApi ⟨0, 100, 1⟩).run (Host.ask (protocol 2) peerApi fun _ node => node)
      ⟨node, 0⟩ = .ok (some [9, 9, 9, 9, 3]) last ∧ last.requests = 2) ∧
    ∃ last, (fetchChunks 0 100 5 2 5 []).run (Host.ask (protocol 2) peerApi fun _ node => node) ⟨node, 0⟩ =
      .ok (some [9, 9, 9, 9, 3]) last ∧ last.requests = 3 := by
  obtain ⟨node, hnode⟩ : ∃ node, sampleRun 2 [] = .ok node := exists_ok (by decide +kernel)
  have hsteady : Steady (protocol 2) peerApi fun _ node => node := fun _ _ => ⟨.start, rfl⟩
  have hhost : (Host.mk node 0).Snapshot (protocol 2) peerApi ⟨0, 100, 1⟩ [9, 9, 9, 9, 3] :=
    ⟨⟨node, of_ok hnode (by decide +kernel), .start⟩, of_ok hnode (by decide +kernel), of_ok hnode (by decide +kernel),
      rfl, by decide, by decide⟩
  obtain ⟨hwhole, hchunks⟩ := (downloadSnapshot_exact (protocol 2) peerApi).1 _ _ _ _ hsteady hhost
  exact ⟨node, hnode, hwhole, hchunks 2 (by decide) (by decide)⟩

end Reference

end PaqusNetwork
