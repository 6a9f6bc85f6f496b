import PaqusNetwork.Network.Framing

namespace PaqusNetwork

open Effect Numeric

variable {M : Type} {codec : EnvelopeCodec M} {arrivals : List Arrival}

def boundaries (codec : EnvelopeCodec M) : List (NetworkEnvelope M) → List Nat
  | [] => [0]
  | envelope :: rest =>
    match writeMessage codec envelope with
    | .ok bytes => 0 :: (boundaries codec rest).map (· + bytes.length)
    | .error _ => [0]

theorem zero_mem_boundaries (envelopes : List (NetworkEnvelope M)) : 0 ∈ boundaries codec envelopes := by
  cases envelopes with
  | nil => exact List.mem_cons_self ..
  | cons envelope rest =>
    unfold boundaries
    split <;> exact List.mem_cons_self ..

/-- A run of the reader loop on a connection that neither ends nor breaks. -/
inductive Passes (codec : EnvelopeCodec M) : List Arrival → List (NetworkEnvelope M) → Prop
  | received {payload : List UInt8} {envelope : NetworkEnvelope M} {arrivals rest : List Arrival}
      {later : List (NetworkEnvelope M)} (taken : Taken (frame payload) arrivals rest)
      (decoded : fromBytes codec payload = .ok envelope) (passes : Passes codec rest later) :
      Passes codec arrivals (envelope :: later)
  | stalled {lost : List UInt8} {arrivals rest : List Arrival} {later : List (NetworkEnvelope M)}
      (cut : Cut lost arrivals rest) (short : Short lost) (passes : Passes codec rest later) :
      Passes codec arrivals later
  | tooLarge {head : List UInt8} {arrivals rest : List Arrival} (taken : Taken head arrivals rest)
      (size : head.length = messageLengthSize) (large : fromBigEndian head > maxNetworkMessageSize) :
      Passes codec arrivals []
  | undecodable {payload : List UInt8} {error : NetworkError} {arrivals rest : List Arrival}
      (taken : Taken (frame payload) arrivals rest) (size : payload.length ≤ maxNetworkMessageSize)
      (bad : fromBytes codec payload = .error error) : Passes codec arrivals []
  | waiting {arrivals : List Arrival} (short : Short (data arrivals)) (quiet : stalls arrivals = []) :
      Passes codec arrivals []

theorem peerReader_passes {fuel : Nat} (hfuel : arrivalsSize arrivals < fuel)
    (hdelayed : ∀ arrival ∈ arrivals, arrival.delayed) :
    Passes codec arrivals (peerReader codec fuel arrivals) := by
  induction fuel generalizing arrivals with
  | zero => exact absurd hfuel (Nat.not_lt_zero _)
  | succ fuel ih =>
    have hread : MessageRead codec arrivals (readMessage codec arrivals) := readMessage_spec hdelayed
    unfold peerReader
    generalize readMessage codec arrivals = result at hread ⊢
    cases hread with
    | done taken decoded =>
      have hsize := taken.size
      rw [length_frame, messageLengthSize] at hsize
      exact .received taken decoded (ih (by omega) taken.delayed)
    | stalled cut short retried =>
      have hsize := cut.size
      simp only [retried, if_true]
      exact .stalled cut short (ih (by omega) cut.delayed)
    | tooLarge taken size large => exact .tooLarge taken size large
    | undecodable taken size bad =>
      simp only [fromBytes_error bad, Bool.false_eq_true, if_false]
      exact .undecodable taken size bad
    | waiting short quiet => exact .waiting short quiet

variable {envelopes : List (NetworkEnvelope M)}

theorem writeMessages_cons {envelope : NetworkEnvelope M}
    {stream : List UInt8} (h : writeMessages codec (envelope :: envelopes) = .ok stream) :
    ∃ payload later, stream = frame payload ++ later ∧ payload.length ≤ maxNetworkMessageSize ∧
      codec.toVec envelope = .ok payload ∧ writeMessages codec envelopes = .ok later ∧
      boundaries codec (envelope :: envelopes) =
        0 :: (boundaries codec envelopes).map (· + (frame payload).length) := by
  unfold writeMessages at h
  split at h
  next => cases h
  next bytes hwritten =>
  obtain ⟨payload, rfl, hsize, hvec⟩ := writeMessage_ok hwritten
  obtain ⟨later, hlater, rfl⟩ := map_eq_ok.mp h
  exact ⟨payload, later, rfl, hsize, hvec, hlater, by rw [boundaries, hwritten]⟩

variable {passed : List (NetworkEnvelope M)}

/-- If no time-out falls inside a message, then the reader passes on what has been written, as far as
it has arrived. -/
theorem Passes.delivers (lawful : codec.Lawful) (h : Passes codec arrivals passed) :
    ∀ {envelopes : List (NetworkEnvelope M)} {stream : List UInt8},
      writeMessages codec envelopes = .ok stream → data arrivals <+: stream →
      (∀ envelope ∈ envelopes, envelope.magic = codec.networkMagic) →
      (∀ offset ∈ stalls arrivals, offset ∈ boundaries codec envelopes) →
      passed <+: envelopes ∧ (data arrivals = stream → passed = envelopes) := by
  induction h with
  | @received payload envelope arrivals rest later taken decoded _ ih =>
    rintro envelopes stream hwritten ⟨more, hmore⟩ hmagic hstalls
    obtain ⟨hsize, hslice, _⟩ := fromBytes_ok decoded
    rw [taken.data_eq, List.append_assoc] at hmore
    cases envelopes with
    | nil =>
      cases hwritten
      have hlength := congrArg List.length hmore
      rw [List.length_append, length_frame, messageLengthSize] at hlength
      simp at hlength
    | cons written envelopes =>
      obtain ⟨payload', stream', rfl, hsize', hvec, hwritten', hbounds⟩ := writeMessages_cons hwritten
      obtain ⟨rfl, hrest⟩ := frame_append_inj hsize hsize' hmore
      cases hslice.symm.trans (lawful.roundTrip hvec)
      have hstalls' : ∀ offset ∈ stalls rest, offset ∈ boundaries codec envelopes := by
        intro offset hoffset
        have hmem := hstalls (offset + (frame payload).length)
          (by rw [taken.stalls_eq]; exact List.mem_map_of_mem hoffset)
        rw [hbounds, List.mem_cons, List.mem_map] at hmem
        rcases hmem with hzero | ⟨bound, hbound, heq⟩
        · rw [length_frame, messageLengthSize] at hzero
          omega
        · rwa [← Nat.add_right_cancel heq]
      obtain ⟨hprior, hall⟩ := ih hwritten' ⟨more, hrest⟩ (fun e he => hmagic e (List.mem_cons_of_mem _ he)) hstalls'
      refine ⟨(List.prefix_cons_inj _).mpr hprior, fun hdata => ?_⟩
      rw [taken.data_eq] at hdata
      rw [hall (List.append_cancel_left hdata)]
  | @stalled lost arrivals rest later cut short _ ih =>
    rintro envelopes stream hwritten ⟨more, hmore⟩ hmagic hstalls
    have hlost : lost = [] := by
      have hmem := hstalls lost.length (by rw [cut.stalls_eq]; exact List.mem_cons_self ..)
      cases envelopes with
      | nil =>
        rw [boundaries, List.mem_singleton] at hmem
        exact List.length_eq_zero_iff.mp hmem
      | cons written envelopes =>
        obtain ⟨payload, stream', rfl, hsize, _, _, hbounds⟩ := writeMessages_cons hwritten
        rw [cut.data_eq, List.append_assoc] at hmore
        have hlt := short.length_lt hsize hmore
        rw [hbounds, List.mem_cons, List.mem_map] at hmem
        rcases hmem with hzero | ⟨bound, _, heq⟩
        · exact List.length_eq_zero_iff.mp hzero
        · omega
    subst hlost
    have hdata : data arrivals = data rest := cut.data_eq
    rw [hdata] at hmore ⊢
    refine ih hwritten ⟨more, hmore⟩ hmagic fun offset hoffset => hstalls offset ?_
    rw [cut.stalls_eq]
    exact List.mem_cons_of_mem _ (by simpa using hoffset)
  | @tooLarge head arrivals rest taken size large =>
    rintro envelopes stream hwritten ⟨more, hmore⟩ _ _
    refine ⟨List.nil_prefix, fun _ => ?_⟩
    cases envelopes with
    | nil => rfl
    | cons written envelopes =>
      obtain ⟨payload, stream', rfl, hsize, _⟩ := writeMessages_cons hwritten
      rw [taken.data_eq, frame, List.append_assoc, List.append_assoc] at hmore
      obtain ⟨rfl, _⟩ := List.append_inj hmore (by simpa using size)
      rw [length_decoded hsize] at large
      omega
  | @undecodable payload error arrivals rest taken size bad =>
    rintro envelopes stream hwritten ⟨more, hmore⟩ hmagic _
    refine ⟨List.nil_prefix, fun _ => ?_⟩
    cases envelopes with
    | nil => rfl
    | cons written envelopes =>
      obtain ⟨payload', stream', rfl, hsize', hvec, _⟩ := writeMessages_cons hwritten
      rw [taken.data_eq, List.append_assoc] at hmore
      obtain ⟨rfl, _⟩ := frame_append_inj size hsize' hmore
      cases bad.symm.trans (fromBytes_written lawful size hvec (hmagic _ (List.mem_cons_self ..)))
  | @waiting arrivals short _ =>
    rintro envelopes stream hwritten _ _ _
    refine ⟨List.nil_prefix, fun hdata => ?_⟩
    cases envelopes with
    | nil => rfl
    | cons written envelopes =>
      obtain ⟨payload, stream', rfl, hsize, _⟩ := writeMessages_cons hwritten
      rw [hdata] at short
      exact absurd short (not_short_frame hsize _)

/-- If the reader passes on messages that make up all the bytes, then it has met no time-out inside a
message. -/
theorem Passes.exact (lawful : codec.Lawful) (h : Passes codec arrivals passed) :
    (∀ envelope ∈ passed, envelope.magic = codec.networkMagic) ∧
      ∃ stream, writeMessages codec passed = .ok stream ∧ stream.length ≤ (data arrivals).length ∧
        (stream.length = (data arrivals).length →
          ∀ offset ∈ stalls arrivals, offset ∈ boundaries codec passed) := by
  induction h with
  | @received payload envelope arrivals rest later taken decoded _ ih =>
    obtain ⟨hmagic, stream, hwritten, hle, hstalls⟩ := ih
    have hframe := writeMessage_decoded lawful decoded
    have hdata := congrArg List.length taken.data_eq
    rw [List.length_append] at hdata
    refine ⟨List.forall_mem_cons.mpr ⟨(fromBytes_ok decoded).2.2, hmagic⟩, frame payload ++ stream, ?_, ?_, ?_⟩
    · rw [writeMessages, hframe, hwritten]
      rfl
    · rw [List.length_append]
      omega
    · intro hall offset hoffset
      rw [List.length_append] at hall
      rw [taken.stalls_eq] at hoffset
      obtain ⟨first, hfirst, rfl⟩ := List.mem_map.mp hoffset
      rw [boundaries, hframe]
      exact List.mem_cons_of_mem _ (List.mem_map_of_mem (hstalls (by omega) _ hfirst))
  | @stalled lost arrivals rest later cut short _ ih =>
    obtain ⟨hmagic, stream, hwritten, hle, hstalls⟩ := ih
    have hdata := congrArg List.length cut.data_eq
    rw [List.length_append] at hdata
    refine ⟨hmagic, stream, hwritten, by omega, fun hall offset hoffset => ?_⟩
    rw [cut.stalls_eq, show lost.length = 0 by omega, List.mem_cons] at hoffset
    rcases hoffset with rfl | hoffset
    · exact zero_mem_boundaries later
    · exact hstalls (by omega) offset (by simpa using hoffset)
  | @tooLarge head arrivals rest taken size large =>
    refine ⟨by simp, [], rfl, Nat.zero_le _, fun hall => ?_⟩
    rw [taken.data_eq, List.length_append, size, messageLengthSize, List.length_nil] at hall
    omega
  | @undecodable payload error arrivals rest taken size bad =>
    refine ⟨by simp, [], rfl, Nat.zero_le _, fun hall => ?_⟩
    rw [taken.data_eq, List.length_append, length_frame, messageLengthSize, List.length_nil] at hall
    omega
  | @waiting arrivals short quiet =>
    refine ⟨by simp, [], rfl, Nat.zero_le _, fun _ => ?_⟩
    simp [quiet]

/-- The channel holds the first of the written messages, and all of them in the end, if and only if all carry
the network magic and no read times out inside a message. -/
theorem spawnPeerReader_delivers_iff (lawful : codec.Lawful) {envelopes : List (NetworkEnvelope M)}
    {arrivals : List Arrival} (hwritten : writeMessages codec envelopes = .ok (data arrivals))
    (hdelayed : ∀ arrival ∈ arrivals, arrival.delayed) :
    ((∀ part, part <+: arrivals → spawnPeerReader codec part <+: envelopes) ∧
        spawnPeerReader codec arrivals = envelopes) ↔
      (∀ envelope ∈ envelopes, envelope.magic = codec.networkMagic) ∧
        ∀ offset ∈ stalls arrivals, offset ∈ boundaries codec envelopes := by
  have hpasses : ∀ part, part <+: arrivals → Passes codec part (spawnPeerReader codec part) :=
    fun part hpart => peerReader_passes (Nat.lt_succ_self _) fun arrival h => hdelayed arrival (hpart.subset h)
  constructor
  · rintro ⟨_, hall⟩
    obtain ⟨hmagic, stream, hstream, _, hstalls⟩ := (hpasses arrivals List.prefix_rfl).exact lawful
    rw [hall] at hmagic hstream hstalls
    cases hwritten.symm.trans hstream
    exact ⟨hmagic, hstalls rfl⟩
  · rintro ⟨hmagic, hstalls⟩
    refine ⟨?_, ((hpasses arrivals List.prefix_rfl).delivers lawful hwritten List.prefix_rfl hmagic hstalls).2 rfl⟩
    rintro part ⟨more, rfl⟩
    refine ((hpasses part ⟨more, rfl⟩).delivers lawful hwritten ⟨data more, ?_⟩ hmagic fun offset hoffset =>
      hstalls offset (mem_stalls_append more hoffset)).1
    rw [data_append]

namespace Reference

def encodeEnvelope (envelope : NetworkEnvelope UInt8) : List UInt8 :=
  envelope.magic.toList ++ (littleEndian 8 envelope.requestId.toNat ++
    (littleEndian 8 envelope.responseTo.toNat ++ [envelope.message]))

/-- The bytes are those of the envelope that they start with, and no others follow. -/
def decodeEnvelope : List UInt8 → Except IoError (NetworkEnvelope UInt8)
  | m0 :: m1 :: m2 :: m3 :: rest =>
    let envelope :=
      { magic := #v[m0, m1, m2, m3]
        requestId := .ofNat (fromLittleEndian (rest.take 8))
        responseTo := .ofNat (fromLittleEndian ((rest.drop 8).take 8))
        message := (rest.drop 16).headD 0 }
    if encodeEnvelope envelope = m0 :: m1 :: m2 :: m3 :: rest then .ok envelope
    else .error ⟨.invalidData, "Unexpected length of input"⟩
  | _ => .error ⟨.invalidData, "Unexpected length of input"⟩

def envelopeCodec : EnvelopeCodec UInt8 where
  networkMagic := #v[80, 65, 81, 85]
  toVec envelope := .ok (encodeEnvelope envelope)
  tryFromSlice := decodeEnvelope

theorem exists_magic (magic : Vector UInt8 4) : ∃ m0 m1 m2 m3, magic = #v[m0, m1, m2, m3] :=
  ⟨magic[0], magic[1], magic[2], magic[3], by
    apply Vector.ext
    rintro (_ | _ | _ | _ | i) hi
    iterate 4 rfl
    omega⟩

theorem ofNat_fromLittleEndian (word : UInt64) :
    UInt64.ofNat (fromLittleEndian (littleEndian 8 word.toNat)) = word := by
  rw [fromLittleEndian_littleEndian word.toNat_lt, UInt64.ofNat_toNat]

theorem decodeEnvelope_encodeEnvelope (envelope : NetworkEnvelope UInt8) :
    decodeEnvelope (encodeEnvelope envelope) = .ok envelope := by
  obtain ⟨magic, requestId, responseTo, message⟩ := envelope
  obtain ⟨m0, m1, m2, m3, rfl⟩ := exists_magic magic
  have hrequest := length_littleEndian 8 requestId.toNat
  have hresponse := length_littleEndian 8 responseTo.toNat
  have htail : (littleEndian 8 requestId.toNat ++ (littleEndian 8 responseTo.toNat ++ [message])).drop 16 =
      [message] := by
    rw [← List.append_assoc, List.drop_left' (by simp)]
  simp only [encodeEnvelope, Vector.toList_mk, List.cons_append, List.nil_append, decodeEnvelope, htail,
    List.take_left' hrequest, List.drop_left' hrequest, List.take_left' hresponse, ofNat_fromLittleEndian,
    List.headD_cons, if_true]

theorem encodeEnvelope_decodeEnvelope {envelope : NetworkEnvelope UInt8} {bytes : List UInt8}
    (h : decodeEnvelope bytes = .ok envelope) : encodeEnvelope envelope = bytes := by
  unfold decodeEnvelope at h
  split at h
  next =>
    dsimp only at h
    split at h
    next heq => cases h; exact heq
    next => cases h
  next => cases h

theorem envelopeCodec_lawful : envelopeCodec.Lawful where
  roundTrip h := by
    cases h
    exact decodeEnvelope_encodeEnvelope _
  canonical h := congrArg _ (encodeEnvelope_decodeEnvelope h)

def greeting : NetworkEnvelope UInt8 :=
  { magic := envelopeCodec.networkMagic, requestId := 1, responseTo := 0, message := 7 }

def answer : NetworkEnvelope UInt8 :=
  { magic := envelopeCodec.networkMagic, requestId := 0, responseTo := 1, message := 9 }

def arrivalsOf : List UInt8 → List Arrival
  | [] => []
  | head :: tail => [.bytes head tail]

theorem spawnPeerReader_two_messages :
    ∃ arrivals, arrivals = arrivalsOf ((frame (encodeEnvelope greeting)).take 3) ++
          .failed ⟨.interrupted, "EINTR"⟩ :: arrivalsOf ((frame (encodeEnvelope greeting)).drop 3) ++
          .failed ⟨.timedOut, "timed out"⟩ :: arrivalsOf (frame (encodeEnvelope answer)) ++
          [.failed ⟨.wouldBlock, "EAGAIN"⟩] ∧
      (∀ part, part <+: arrivals → spawnPeerReader envelopeCodec part <+: [greeting, answer]) ∧
      spawnPeerReader envelopeCodec arrivals = [greeting, answer] :=
  ⟨_, rfl, (spawnPeerReader_delivers_iff envelopeCodec_lawful rfl (by decide +kernel)).mpr (by decide +kernel)⟩

/-- A read times out after two bytes of the length: the next read takes the start of the payload for a length,
and the thread ends. -/
theorem spawnPeerReader_loses_message :
    ∃ arrivals, arrivals = arrivalsOf ((frame (encodeEnvelope greeting)).take 2) ++
          .failed ⟨.timedOut, "timed out"⟩ :: arrivalsOf ((frame (encodeEnvelope greeting)).drop 2) ++
          arrivalsOf (frame (encodeEnvelope answer)) ∧
      (∀ arrival ∈ arrivals, arrival.delayed) ∧
      writeMessages envelopeCodec [greeting, answer] = .ok (data arrivals) ∧
      spawnPeerReader envelopeCodec arrivals = [] ∧
      spawnPeerReader envelopeCodec arrivals ≠ [greeting, answer] :=
  ⟨_, rfl, by decide +kernel, rfl, by decide +kernel, by decide +kernel⟩

end Reference

variable {rest : List Arrival} {envelope : NetworkEnvelope M} {envelopes : List (NetworkEnvelope M)}

/-- The length of the buffer that `read_message` allocates for the payload. -/
def payloadLength (arrivals : List Arrival) : Read Nat :=
  (readExactLogged "length" messageLengthSize [] arrivals).bind fun lengthBytes rest =>
    if fromBigEndian lengthBytes > maxNetworkMessageSize then .failed .messageTooLarge rest
    else .done (fromBigEndian lengthBytes) rest

def readPayload (codec : EnvelopeCodec M) (length : Nat) (arrivals : List Arrival) : Read (NetworkEnvelope M) :=
  (readExactLogged "payload" length [] arrivals).bind fun bytes rest =>
    match fromBytes codec bytes with
    | .ok envelope => .done envelope rest
    | .error error => .failed error rest

def readMessages (codec : EnvelopeCodec M) : Nat → List Arrival → Read (List (NetworkEnvelope M))
  | 0, arrivals => .done [] arrivals
  | count + 1, arrivals =>
    (readMessage codec arrivals).bind fun envelope rest =>
      (readMessages codec count rest).bind fun later rest => .done (envelope :: later) rest

theorem Read.bind_eq_done {α β : Type} {read : Read α} {next : α → List Arrival → Read β} {value : β}
    (h : read.bind next = .done value rest) :
    ∃ first between, read = .done first between ∧ next first between = .done value rest := by
  cases read with
  | done first between => exact ⟨first, between, rfl, h⟩
  | failed error between => cases h
  | waiting => cases h

theorem readExactLogged_append {phase : String} {expected : Nat} {received value : List UInt8}
    (h : readExactLogged phase expected received arrivals = .done value rest)
    (later : List Arrival) :
    readExactLogged phase expected received (arrivals ++ later) = .done value (rest ++ later) := by
  fun_induction readExactLogged phase expected received arrivals with
  | case1 received hfull =>
    cases h
    cases later with
    | nil => exact if_pos hfull
    | cons arrival later => exact if_pos hfull
  | case2 => cases h
  | case3 received arrival arrivals count hfull =>
    cases h
    exact if_pos hfull
  | case4 => cases h
  | case5 received arrivals count hshort error hkind ih =>
    rw [List.cons_append, readExactLogged, if_neg hshort]
    exact (if_pos hkind).trans (ih h)
  | case6 => cases h
  | case7 received arrivals count hshort head tail chunk hdrop ih =>
    rw [List.cons_append, readExactLogged, if_neg hshort]
    simp only [chunk, count] at hdrop
    simp only [hdrop]
    exact ih h
  | case8 received arrivals count hshort head tail chunk next more hdrop =>
    cases h
    rw [List.cons_append, readExactLogged, if_neg hshort]
    simp only [chunk, count] at hdrop
    simp only [hdrop]
    rfl

theorem readMessage_eq (arrivals : List Arrival) :
    readMessage codec arrivals = (payloadLength arrivals).bind (readPayload codec) := by
  unfold readMessage payloadLength
  cases readExactLogged "length" messageLengthSize [] arrivals with
  | done lengthBytes rest =>
    simp only [Read.bind]
    split
    next => rfl
    next => rfl
  | failed error rest => rfl
  | waiting => rfl

theorem readMessage_append (h : readMessage codec arrivals = .done envelope rest) (later : List Arrival) :
    readMessage codec (arrivals ++ later) = .done envelope (rest ++ later) := by
  obtain ⟨lengthBytes, between, hlength, hnext⟩ := Read.bind_eq_done h
  unfold readMessage
  rw [readExactLogged_append hlength]
  dsimp only [Read.bind] at hnext ⊢
  split at hnext
  next => cases hnext
  next hsize =>
  obtain ⟨bytes, _, hbytes, hdecoded⟩ := Read.bind_eq_done hnext
  rw [if_neg hsize, readExactLogged_append hbytes]
  dsimp only
  split at hdecoded
  next => cases hdecoded; rfl
  next => cases hdecoded

theorem payloadLength_le {length : Nat}
    (h : payloadLength arrivals = .done length rest) : length ≤ maxNetworkMessageSize := by
  obtain ⟨lengthBytes, between, _, hlength⟩ := Read.bind_eq_done h
  split at hlength
  next => cases hlength
  next hsize =>
    cases hlength
    exact Nat.le_of_not_lt hsize

theorem readMessage_magic (h : readMessage codec arrivals = .done envelope rest) :
    envelope.magic = codec.networkMagic := by
  rw [readMessage_eq] at h
  obtain ⟨length, between, _, hpayload⟩ := Read.bind_eq_done h
  obtain ⟨bytes, rest, _, hdecoded⟩ := Read.bind_eq_done hpayload
  split at hdecoded
  next decoded hbytes =>
    cases hdecoded
    exact (fromBytes_ok hbytes).2.2
  next => cases hdecoded

theorem readMessage_first (lawful : codec.Lawful) {later : List (NetworkEnvelope M)}
    (hdelayed : ∀ arrival ∈ arrivals, arrival.delayed)
    (hwritten : writeMessages codec (envelope :: later) = .ok (data arrivals))
    (hmagic : envelope.magic = codec.networkMagic) :
    (∃ payload rest, readMessage codec arrivals = .done envelope rest ∧ Taken (frame payload) arrivals rest ∧
        writeMessages codec later = .ok (data rest)) ∨
      ∃ error rest, readMessage codec arrivals = .failed error rest ∧
        ∃ offset ∈ stalls arrivals, offset < (data arrivals).length := by
  obtain ⟨payload, stream, hdata, hsize, hvec, hlater, _⟩ := writeMessages_cons hwritten
  have hspec : MessageRead codec arrivals (readMessage codec arrivals) := readMessage_spec hdelayed
  generalize readMessage codec arrivals = result at hspec
  cases hspec with
  | @done payload' found rest taken decoded =>
    obtain ⟨hsize', hslice, _⟩ := fromBytes_ok decoded
    obtain ⟨rfl, hrest⟩ := frame_append_inj hsize' hsize (taken.data_eq.symm.trans hdata)
    cases hslice.symm.trans (lawful.roundTrip hvec)
    exact .inl ⟨payload', rest, rfl, taken, hrest ▸ hlater⟩
  | @stalled lost error rest cut short _ =>
    have hlt := short.length_lt hsize (cut.data_eq.symm.trans hdata)
    refine .inr ⟨error, rest, rfl, lost.length, by rw [cut.stalls_eq]; exact List.mem_cons_self, ?_⟩
    rw [hdata, List.length_append]
    omega
  | @tooLarge head rest taken size large =>
    have hboth := taken.data_eq.symm.trans hdata
    rw [frame, List.append_assoc] at hboth
    obtain ⟨rfl, _⟩ := List.append_inj hboth (by simpa using size)
    rw [length_decoded hsize] at large
    omega
  | @undecodable payload' error rest taken size bad =>
    obtain ⟨rfl, _⟩ := frame_append_inj size hsize (taken.data_eq.symm.trans hdata)
    cases bad.symm.trans (fromBytes_written lawful size hvec hmagic)
  | waiting short _ =>
    rw [hdata] at short
    exact absurd short (not_short_frame hsize _)

theorem readMessages_written (lawful : codec.Lawful) (hwritten : writeMessages codec envelopes = .ok (data arrivals))
    (hdelayed : ∀ arrival ∈ arrivals, arrival.delayed) (hquiet : stalls arrivals = [])
    (hmagic : ∀ envelope ∈ envelopes, envelope.magic = codec.networkMagic) (later : List Arrival) :
    ∃ rest, readMessages codec envelopes.length (arrivals ++ later) = .done envelopes (rest ++ later) ∧
      data rest = [] := by
  induction envelopes generalizing arrivals with
  | nil =>
    injection hwritten with hdata
    exact ⟨arrivals, rfl, hdata.symm⟩
  | cons envelope envelopes ih =>
    rcases readMessage_first lawful hdelayed hwritten (hmagic _ (List.mem_cons_self ..)) with
      ⟨payload, between, hread, taken, hbytes⟩ | ⟨_, _, _, offset, hoffset, _⟩
    · have hbetween : stalls between = [] := List.map_eq_nil_iff.mp (taken.stalls_eq.symm.trans hquiet)
      obtain ⟨rest, hrest, hnone⟩ := ih hbytes taken.delayed hbetween fun e he => hmagic e (List.mem_cons_of_mem _ he)
      exact ⟨rest, by simp [readMessages, readMessage_append hread, hrest, Read.bind], hnone⟩
    · rw [hquiet] at hoffset
      cases hoffset

theorem readMessages_magic {count : Nat} (h : readMessages codec count arrivals = .done envelopes rest) :
    ∀ envelope ∈ envelopes, envelope.magic = codec.networkMagic := by
  induction count generalizing arrivals envelopes with
  | zero =>
    cases h
    exact List.forall_mem_nil _
  | succ count ih =>
    obtain ⟨envelope, between, hread, hnext⟩ := Read.bind_eq_done h
    obtain ⟨later, _, hlater, hdone⟩ := Read.bind_eq_done hnext
    cases hdone
    exact List.forall_mem_cons.mpr ⟨readMessage_magic hread, ih hlater⟩

/-- Written messages are read back, however the bytes arrive, if and only if they carry the network magic. -/
theorem readMessages_written_iff (lawful : codec.Lawful) :
    (∀ (envelopes : List (NetworkEnvelope M)) (arrivals later : List Arrival),
      writeMessages codec envelopes = .ok (data arrivals) →
      (∀ arrival ∈ arrivals, arrival.delayed) → stalls arrivals = [] →
      ((∃ rest, readMessages codec envelopes.length (arrivals ++ later) = .done envelopes (rest ++ later) ∧
          data rest = []) ↔
        ∀ envelope ∈ envelopes, envelope.magic = codec.networkMagic)) ∧
    ∀ arrivals : List Arrival, readMessage codec arrivals = (payloadLength arrivals).bind (readPayload codec) ∧
      (∀ length rest, payloadLength arrivals = .done length rest → length ≤ maxNetworkMessageSize) ∧
      ∀ envelope rest, readMessage codec arrivals = .done envelope rest →
        envelope.magic = codec.networkMagic := by
  refine ⟨fun envelopes arrivals later hwritten hdelayed hquiet => ⟨?_, ?_⟩, fun arrivals => ⟨?_, ?_, ?_⟩⟩
  · rintro ⟨rest, hread, _⟩
    exact readMessages_magic hread
  · exact fun hmagic => readMessages_written lawful hwritten hdelayed hquiet hmagic later
  · exact readMessage_eq arrivals
  · exact fun length rest => payloadLength_le
  · exact fun envelope rest => readMessage_magic

namespace Reference

theorem readMessages_written_two :
    ∃ arrivals, arrivals = arrivalsOf ((frame (encodeEnvelope greeting)).take 3) ++
          .failed ⟨.interrupted, "EINTR"⟩ :: arrivalsOf ((frame (encodeEnvelope greeting)).drop 3) ++
          arrivalsOf (frame (encodeEnvelope answer)) ∧
      ∃ rest, readMessages envelopeCodec 2 (arrivals ++ [.closed]) =
        .done [greeting, answer] (rest ++ [.closed]) ∧ data rest = [] :=
  ⟨_, rfl, ((readMessages_written_iff envelopeCodec_lawful).1 [greeting, answer] _ [.closed] rfl
    (by decide +kernel) (by decide +kernel)).mpr (by decide +kernel)⟩

/-- A message with the magic of another network is written, and refused by the reader. -/
theorem readMessages_foreign_magic :
    ∃ foreign : NetworkEnvelope UInt8, writeMessages envelopeCodec [foreign] = .ok (frame (encodeEnvelope foreign)) ∧
      readMessage envelopeCodec (arrivalsOf (frame (encodeEnvelope foreign))) =
        .failed (.serialization ⟨.invalidData, "network magic mismatch"⟩) [] :=
  ⟨{ greeting with magic := #v[0, 0, 0, 0] }, by decide +kernel, by decide +kernel⟩

end Reference

end PaqusNetwork
