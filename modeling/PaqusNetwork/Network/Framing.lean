import PaqusNetwork.Network.Handler

namespace PaqusNetwork

open Numeric

section

variable {arrivals rest between : List Arrival} {expected : Nat} {received : List UInt8}

def data : List Arrival → List UInt8
  | [] => []
  | .bytes head tail :: rest => head :: tail ++ data rest
  | _ :: rest => data rest

def stalls : List Arrival → List Nat
  | [] => []
  | .bytes _ tail :: rest => (stalls rest).map (· + (tail.length + 1))
  | .failed error :: rest => if error.kind = .interrupted then stalls rest else 0 :: stalls rest
  | .closed :: rest => stalls rest

theorem data_append (part more : List Arrival) : data (part ++ more) = data part ++ data more := by
  induction part with
  | nil => rfl
  | cons arrival rest ih => cases arrival <;> simp [data, ih]

theorem mem_stalls_append {part : List Arrival} (more : List Arrival) {offset : Nat}
    (h : offset ∈ stalls part) : offset ∈ stalls (part ++ more) := by
  induction part generalizing offset with
  | nil => cases h
  | cons arrival rest ih =>
    cases arrival with
    | bytes head tail =>
      obtain ⟨first, hfirst, rfl⟩ := List.mem_map.mp h
      exact List.mem_map_of_mem (ih hfirst)
    | closed => exact ih h
    | failed error =>
      simp only [stalls, List.cons_append] at h ⊢
      split at h
      next hkind =>
        rw [if_pos hkind]
        exact ih h
      next hkind =>
        rw [if_neg hkind]
        rcases List.mem_cons.mp h with rfl | hlater
        · exact List.mem_cons_self ..
        · exact List.mem_cons_of_mem _ (ih hlater)

/-- Bytes, time-outs and interrupts: the connection neither ends nor breaks. -/
def Arrival.delayed : Arrival → Bool
  | .bytes _ _ => true
  | .failed error =>
    error.kind = .wouldBlock || error.kind = .timedOut || error.kind = .interrupted
  | .closed => false

/-- The reader has taken the bytes without meeting a time-out. -/
structure Taken (got : List UInt8) (arrivals rest : List Arrival) : Prop where
  data_eq : data arrivals = got ++ data rest
  stalls_eq : stalls arrivals = (stalls rest).map (· + got.length)
  size : arrivalsSize rest + got.length ≤ arrivalsSize arrivals
  delayed : ∀ arrival ∈ rest, arrival.delayed

/-- The reader has met the first time-out after the bytes. -/
structure Cut (lost : List UInt8) (arrivals rest : List Arrival) : Prop where
  data_eq : data arrivals = lost ++ data rest
  stalls_eq : stalls arrivals = lost.length :: (stalls rest).map (· + lost.length)
  size : arrivalsSize rest < arrivalsSize arrivals
  delayed : ∀ arrival ∈ rest, arrival.delayed

theorem Taken.refl (h : ∀ arrival ∈ arrivals, arrival.delayed) : Taken [] arrivals arrivals :=
  ⟨rfl, by simp, by simp, h⟩

theorem Taken.trans {first second : List UInt8} (h : Taken first arrivals between) (h' : Taken second between rest) :
    Taken (first ++ second) arrivals rest := by
  refine ⟨?_, ?_, ?_, h'.delayed⟩
  · rw [h.data_eq, h'.data_eq, List.append_assoc]
  · rw [h.stalls_eq, h'.stalls_eq, List.map_map]
    exact List.map_congr_left fun offset _ => by
      simp only [Function.comp_apply, List.length_append]
      omega
  · have hsize := h.size
    have hsize' := h'.size
    rw [List.length_append]
    omega

theorem Taken.cut {first lost : List UInt8} (h : Taken first arrivals between) (h' : Cut lost between rest) :
    Cut (first ++ lost) arrivals rest := by
  refine ⟨?_, ?_, ?_, h'.delayed⟩
  · rw [h.data_eq, h'.data_eq, List.append_assoc]
  · rw [h.stalls_eq, h'.stalls_eq, List.map_cons, List.map_map, List.length_append, Nat.add_comm]
    refine congrArg _ (List.map_congr_left fun offset _ => ?_)
    simp only [Function.comp_apply]
    omega
  · have hsize := h.size
    have hsize' := h'.size
    omega

theorem Taken.bytes (head : UInt8) (tail : List UInt8) (h : ∀ arrival ∈ rest, arrival.delayed) :
    Taken (head :: tail) (.bytes head tail :: rest) rest :=
  ⟨rfl, rfl, by simp [arrivalsSize, Arrival.size, Nat.add_comm], h⟩

theorem Taken.part {head next : UInt8} {tail later : List UInt8} {room : Nat}
    (hdrop : (head :: tail).drop room = next :: later) (h : ∀ arrival ∈ rest, arrival.delayed) :
    Taken ((head :: tail).take room) (.bytes head tail :: rest) (.bytes next later :: rest) := by
  have hdata : head :: tail = (head :: tail).take room ++ next :: later := by
    rw [← hdrop, List.take_append_drop]
  have hlength := congrArg List.length hdata
  simp only [List.length_append, List.length_cons] at hlength
  refine ⟨?_, ?_, ?_, ?_⟩
  · change head :: tail ++ _ = _ ++ (next :: later ++ _)
    rw [← List.append_assoc, ← hdata]
  · simp only [stalls, List.map_map, Function.comp_def]
    exact List.map_congr_left fun offset _ => by omega
  · simp only [arrivalsSize, List.map_cons, List.sum_cons, Arrival.size]
    omega
  · simpa [Arrival.delayed] using h

/-- What `read_exact_logged` does on a connection that neither ends nor breaks. -/
inductive ExactRead (expected : Nat) (received : List UInt8) (arrivals : List Arrival) :
    Read (List UInt8) → Prop
  | done {got : List UInt8} {rest : List Arrival} (taken : Taken got arrivals rest)
      (full : (received ++ got).length = expected) :
      ExactRead expected received arrivals (.done (received ++ got) rest)
  | failed {lost : List UInt8} {error : NetworkError} {rest : List Arrival}
      (cut : Cut lost arrivals rest) (retried : error.retried)
      (short : (received ++ lost).length < expected) :
      ExactRead expected received arrivals (.failed error rest)
  | waiting (short : (received ++ data arrivals).length < expected) (quiet : stalls arrivals = []) :
      ExactRead expected received arrivals .waiting

theorem ExactRead.later {chunk : List UInt8} {result : Read (List UInt8)} (h : Taken chunk arrivals between)
    (hread : ExactRead expected (received ++ chunk) between result) :
    ExactRead expected received arrivals result := by
  cases hread with
  | done taken full =>
    rw [List.append_assoc] at full ⊢
    exact .done (h.trans taken) full
  | failed cut retried short =>
    rw [List.append_assoc] at short
    exact .failed (h.cut cut) retried short
  | waiting short quiet =>
    rw [List.append_assoc, ← h.data_eq] at short
    exact .waiting short (by rw [h.stalls_eq, quiet]; rfl)

theorem ExactRead.full (hdelayed : ∀ arrival ∈ arrivals, arrival.delayed) (hfull : received.length = expected) :
    ExactRead expected received arrivals (.done received arrivals) := by
  have h : ExactRead expected received arrivals (.done (received ++ []) arrivals) :=
    .done (Taken.refl hdelayed) (by simpa using hfull)
  simpa using h

theorem readExactLogged_spec (phase : String) (hroom : received.length ≤ expected)
    (hdelayed : ∀ arrival ∈ arrivals, arrival.delayed) :
    ExactRead expected received arrivals (readExactLogged phase expected received arrivals) := by
  induction arrivals generalizing received with
  | nil =>
    rw [readExactLogged]
    split
    next hfull => exact .full hdelayed (by omega)
    next hfull => exact .waiting (by simpa [data] using hfull) rfl
  | cons arrival rest ih =>
    have hrest : ∀ arrival ∈ rest, arrival.delayed := fun a ha => hdelayed a (List.mem_cons_of_mem _ ha)
    have hhead := hdelayed arrival (List.mem_cons_self ..)
    unfold readExactLogged
    by_cases hfull : expected ≤ received.length
    · simp only [if_pos hfull]
      exact .full hdelayed (by omega)
    simp only [if_neg hfull]
    cases arrival with
    | closed => cases hhead
    | failed error =>
      dsimp only
      split
      next hkind =>
        have hskip : Taken [] (.failed error :: rest) rest :=
          ⟨rfl, by simp [stalls, hkind], by simp [arrivalsSize], hrest⟩
        exact .later hskip (by simpa using ih hroom hrest)
      next hkind =>
        have hcut : Cut [] (.failed error :: rest) rest :=
          ⟨rfl, by simp [stalls, hkind], by simp [arrivalsSize, Arrival.size], hrest⟩
        refine .failed hcut ?_ (by simpa using hfull)
        simpa [NetworkError.retried, Arrival.delayed, hkind] using hhead
    | bytes head tail =>
      dsimp only
      split
      next hdrop =>
        have hfits := List.drop_eq_nil_iff.mp hdrop
        exact .later (Taken.bytes head tail hrest) (ih (by simp only [List.length_append]; omega) hrest)
      next next later hdrop =>
        refine .done (Taken.part hdrop hrest) ?_
        have hlength := congrArg List.length hdrop
        simp only [List.length_drop, List.length_cons] at hlength
        simp only [List.length_append, List.length_take, List.length_cons]
        omega

end

variable {M : Type} {codec : EnvelopeCodec M} {payload : List UInt8} {envelope : NetworkEnvelope M}

def frame (payload : List UInt8) : List UInt8 := bigEndian messageLengthSize payload.length ++ payload

def Short (bytes : List UInt8) : Prop :=
  bytes.length < messageLengthSize ∨ bytes.length < messageLengthSize + fromBigEndian (bytes.take messageLengthSize)

theorem length_frame (payload : List UInt8) : (frame payload).length = messageLengthSize + payload.length := by
  simp [frame]

theorem length_decoded (h : payload.length ≤ maxNetworkMessageSize) :
    fromBigEndian (bigEndian messageLengthSize payload.length) = payload.length :=
  fromBigEndian_bigEndian (Nat.lt_of_le_of_lt h (by decide))

theorem not_short_frame (h : payload.length ≤ maxNetworkMessageSize)
    (more : List UInt8) : ¬Short (frame payload ++ more) := by
  have htake : (frame payload ++ more).take messageLengthSize =
      bigEndian messageLengthSize payload.length := by
    rw [frame, List.append_assoc, List.take_append_of_le_length (by simp), List.take_of_length_le (by simp)]
  rintro (hshort | hshort)
  · rw [List.length_append, length_frame] at hshort
    omega
  · rw [htake, length_decoded h, List.length_append, length_frame] at hshort
    omega

theorem Short.length_lt {lost rest more : List UInt8} (hshort : Short lost)
    (h : payload.length ≤ maxNetworkMessageSize) (heq : lost ++ rest = frame payload ++ more) :
    lost.length < (frame payload).length := by
  by_contra hle
  obtain ⟨tail, rfl⟩ := List.prefix_of_prefix_length_le ⟨more, heq.symm⟩ ⟨rest, rfl⟩ (by omega)
  exact not_short_frame h tail hshort

theorem frame_append_inj {payload' rest rest' : List UInt8}
    (h : payload.length ≤ maxNetworkMessageSize) (h' : payload'.length ≤ maxNetworkMessageSize)
    (heq : frame payload ++ rest = frame payload' ++ rest') : payload = payload' ∧ rest = rest' := by
  simp only [frame, List.append_assoc] at heq
  obtain ⟨hlength, hpayload⟩ := List.append_inj heq (by simp)
  have hsame := congrArg fromBigEndian hlength
  rw [length_decoded h, length_decoded h'] at hsame
  exact List.append_inj hpayload hsame

theorem fromBytes_ok (h : fromBytes codec payload = .ok envelope) : payload.length ≤ maxNetworkMessageSize ∧
      codec.tryFromSlice payload = .ok envelope ∧ envelope.magic = codec.networkMagic := by
  unfold fromBytes at h
  split at h
  next => cases h
  next hsize =>
  split at h
  next => cases h
  next hslice =>
  split at h
  next => cases h
  next hmagic =>
    cases h
    exact ⟨Nat.le_of_not_lt hsize, hslice, Decidable.not_not.mp hmagic⟩

theorem fromBytes_error {error : NetworkError}
    (h : fromBytes codec payload = .error error) : error.retried = false := by
  unfold fromBytes at h
  split at h
  next => cases h; rfl
  next =>
  split at h
  next => cases h; rfl
  next =>
  split at h
  next => cases h; rfl
  next => cases h

theorem writeMessage_ok {bytes : List UInt8}
    (h : writeMessage codec envelope = .ok bytes) : ∃ payload, bytes = frame payload ∧
      payload.length ≤ maxNetworkMessageSize ∧ codec.toVec envelope = .ok payload := by
  unfold writeMessage toBytes at h
  split at h
  next => cases h
  next payload hpayload =>
  split at hpayload
  next => cases hpayload
  next hvec =>
  split at hpayload
  next => cases hpayload
  next hsize =>
  cases hpayload
  split at h
  next => cases h
  next =>
    cases h
    exact ⟨payload, rfl, Nat.le_of_not_lt hsize, hvec⟩

theorem writeMessage_decoded (lawful : codec.Lawful) (h : fromBytes codec payload = .ok envelope) :
    writeMessage codec envelope = .ok (frame payload) := by
  obtain ⟨hsize, hslice, _⟩ := fromBytes_ok h
  have hu32 : ¬payload.length > u32Max := Nat.not_lt.mpr (Nat.le_trans hsize (by decide))
  simp only [writeMessage, toBytes, lawful.canonical hslice, if_neg (Nat.not_lt.mpr hsize), if_neg hu32, frame]

theorem fromBytes_written (lawful : codec.Lawful) (hsize : payload.length ≤ maxNetworkMessageSize)
    (hvec : codec.toVec envelope = .ok payload)
    (hmagic : envelope.magic = codec.networkMagic) : fromBytes codec payload = .ok envelope := by
  simp [fromBytes, Nat.not_lt.mpr hsize, lawful.roundTrip hvec, hmagic]

/-- What `read_message` does on a connection that neither ends nor breaks. -/
inductive MessageRead (codec : EnvelopeCodec M) (arrivals : List Arrival) :
    Read (NetworkEnvelope M) → Prop
  | done {payload : List UInt8} {envelope : NetworkEnvelope M} {rest : List Arrival}
      (taken : Taken (frame payload) arrivals rest) (decoded : fromBytes codec payload = .ok envelope) :
      MessageRead codec arrivals (.done envelope rest)
  | stalled {lost : List UInt8} {error : NetworkError} {rest : List Arrival}
      (cut : Cut lost arrivals rest) (short : Short lost) (retried : error.retried) :
      MessageRead codec arrivals (.failed error rest)
  | tooLarge {head : List UInt8} {rest : List Arrival} (taken : Taken head arrivals rest)
      (size : head.length = messageLengthSize) (large : fromBigEndian head > maxNetworkMessageSize) :
      MessageRead codec arrivals (.failed .messageTooLarge rest)
  | undecodable {payload : List UInt8} {error : NetworkError} {rest : List Arrival}
      (taken : Taken (frame payload) arrivals rest) (size : payload.length ≤ maxNetworkMessageSize)
      (bad : fromBytes codec payload = .error error) : MessageRead codec arrivals (.failed error rest)
  | waiting (short : Short (data arrivals)) (quiet : stalls arrivals = []) :
      MessageRead codec arrivals .waiting

theorem readMessage_spec {arrivals : List Arrival} (hdelayed : ∀ arrival ∈ arrivals, arrival.delayed) :
    MessageRead codec arrivals (readMessage codec arrivals) := by
  unfold readMessage
  have hlength : ExactRead messageLengthSize [] arrivals _ :=
    readExactLogged_spec "length" (Nat.zero_le messageLengthSize) hdelayed
  generalize readExactLogged "length" messageLengthSize [] arrivals = result at hlength ⊢
  cases hlength with
  | waiting short quiet => exact .waiting (.inl short) quiet
  | failed cut retried short => exact .stalled cut (.inl short) retried
  | @done head between taken full =>
    simp only [Read.bind, List.nil_append]
    split
    next hlarge => exact .tooLarge taken full hlarge
    next hsize =>
    have htake : ∀ more : List UInt8, (head ++ more).take messageLengthSize = head := fun more => by
      rw [← full, List.nil_append, List.take_left]
    have hhead : bigEndian messageLengthSize (fromBigEndian head) = head := by
      rw [← full]
      exact bigEndian_fromBigEndian head
    have hpayload : ExactRead (fromBigEndian head) [] between _ :=
      readExactLogged_spec "payload" (Nat.zero_le (fromBigEndian head)) taken.delayed
    generalize readExactLogged "payload" (fromBigEndian head) [] between = result at hpayload ⊢
    cases hpayload with
    | waiting short quiet =>
      refine .waiting (.inr ?_) (by rw [taken.stalls_eq, quiet]; rfl)
      rw [taken.data_eq, htake, List.length_append]
      exact Nat.add_lt_add_of_le_of_lt (Nat.le_of_eq full) short
    | failed cut retried short =>
      refine .stalled (taken.cut cut) (.inr ?_) retried
      rw [htake, List.length_append]
      exact Nat.add_lt_add_of_le_of_lt (Nat.le_of_eq full) short
    | @done payload rest taken' full' =>
      simp only [List.nil_append] at full' ⊢
      have hframe : Taken (frame payload) arrivals rest := by
        rw [frame, full', hhead]
        exact taken.trans taken'
      split
      next hdecoded => exact .done hframe hdecoded
      next hbad => exact .undecodable hframe (full' ▸ Nat.le_of_not_lt hsize) hbad

end PaqusNetwork
