import PaqusNetwork.Network.Inbound

namespace PaqusNetwork

open Effect Numeric

def Read.thenClosed {α : Type} (eof : NetworkError) : Read α → Read α
  | .done value rest => .done value (rest ++ [.closed])
  | .failed error rest => .failed error (rest ++ [.closed])
  | .waiting => .failed eof [.closed]

theorem readExactLogged_closed (phase : String) (expected : Nat) (received : List UInt8) (arrivals : List Arrival) :
    ∃ eof, readExactLogged phase expected received (arrivals ++ [.closed]) =
      (readExactLogged phase expected received arrivals).thenClosed eof := by
  induction arrivals generalizing received with
  | nil =>
    simp only [List.nil_append, readExactLogged]
    split
    next => exact ⟨.messageTooLarge, rfl⟩
    next => exact ⟨_, rfl⟩
  | cons arrival rest ih =>
    simp only [List.cons_append, readExactLogged]
    split
    next => exact ⟨.messageTooLarge, rfl⟩
    next =>
      cases arrival with
      | closed => exact ⟨.messageTooLarge, rfl⟩
      | failed error =>
        dsimp only
        split
        next => exact ih received
        next => exact ⟨.messageTooLarge, rfl⟩
      | bytes head tail =>
        dsimp only
        split
        next => exact ih _
        next => exact ⟨.messageTooLarge, rfl⟩

theorem readMessage_closed {M : Type} (codec : EnvelopeCodec M) (arrivals : List Arrival) :
    ∃ eof, readMessage codec (arrivals ++ [.closed]) = (readMessage codec arrivals).thenClosed eof := by
  unfold readMessage
  obtain ⟨eof, hlength⟩ := readExactLogged_closed "length" messageLengthSize [] arrivals
  rw [hlength]
  cases readExactLogged "length" messageLengthSize [] arrivals with
  | waiting => exact ⟨eof, rfl⟩
  | failed error rest => exact ⟨eof, rfl⟩
  | done lengthBytes rest =>
    simp only [Read.thenClosed, Read.bind]
    split
    next => exact ⟨eof, rfl⟩
    next =>
      obtain ⟨eof', hpayload⟩ := readExactLogged_closed "payload" (fromBigEndian lengthBytes) [] rest
      rw [hpayload]
      cases readExactLogged "payload" (fromBigEndian lengthBytes) [] rest with
      | waiting => exact ⟨eof', rfl⟩
      | failed error rest => exact ⟨eof', rfl⟩
      | done bytes rest =>
        simp only [Read.thenClosed]
        cases fromBytes codec bytes with
        | ok envelope => exact ⟨eof', rfl⟩
        | error error => exact ⟨eof', rfl⟩

section Run

variable {F : Type} {paqus : Paqus F} {api : PeerApi} {codec : EnvelopeCodec PeerMessage}
  {turns : Nat → InboundTurn F} {clock : Nat → Nat}

theorem inboundLoop_closed (fuel index : Nat) (arrivals : List Arrival) (peer : InboundPeer F) :
    inboundLoop paqus api codec turns clock fuel index (arrivals ++ [.closed]) peer =
      inboundLoop paqus api codec turns clock fuel index arrivals peer := by
  induction fuel generalizing index arrivals peer with
  | zero => rfl
  | succ fuel ih =>
    unfold inboundLoop
    obtain ⟨eof, hread⟩ := readMessage_closed codec arrivals
    rw [hread]
    cases readMessage codec arrivals with
    | waiting => rfl
    | failed error rest => rfl
    | done envelope rest => simp only [Read.thenClosed, ih]

theorem inboundLoop_handed (fuel index : Nat) (arrivals : List Arrival) (peer : InboundPeer F) :
    ∃ more, (inboundLoop paqus api codec turns clock fuel index arrivals peer).handed = peer.handed ++ more ∧
      ∀ later ∈ more, later.message ≠ .getPeers := by
  induction fuel generalizing index arrivals peer with
  | zero => exact ⟨[], (List.append_nil _).symm, fun _ h => absurd h List.not_mem_nil⟩
  | succ fuel ih =>
    have hstop : ∃ more, peer.handed = peer.handed ++ more ∧ ∀ later ∈ more, later.message ≠ PeerMessage.getPeers :=
      ⟨[], (List.append_nil _).symm, fun _ h => absurd h List.not_mem_nil⟩
    unfold inboundLoop
    split
    next => exact hstop
    next =>
      dsimp only
      split
      next envelope rest _ =>
        obtain ⟨first, hfirst, hother⟩ := @serveEnvelope_handed _ paqus api codec (turns index) envelope
          { peer with budget := peer.budget.renewed clock }
        split
        next next hserve =>
          rw [hserve, state_ok] at hfirst
          obtain ⟨more, hmore, hlater⟩ := ih (index + 1) rest next
          refine ⟨first ++ more, by rw [hmore, hfirst, List.append_assoc], fun later hmem => ?_⟩
          rcases List.mem_append.mp hmem with hmem | hmem
          · exact hother later hmem
          · exact hlater later hmem
        next next hserve =>
          rw [hserve, state_error] at hfirst
          exact ⟨first, hfirst, hother⟩
      next => exact hstop
      next => exact hstop

theorem readMessage_nothing {arrivals : List Arrival} (hdelayed : ∀ arrival ∈ arrivals, arrival.delayed)
    (hdata : data arrivals = []) (envelope : NetworkEnvelope PeerMessage) (rest : List Arrival) :
    readMessage codec arrivals ≠ .done envelope rest := by
  intro hread
  have hspec : MessageRead codec arrivals (readMessage codec arrivals) := readMessage_spec hdelayed
  rw [hread] at hspec
  cases hspec with
  | @done payload _ _ taken decoded =>
    have hlength := congrArg List.length (hdata.symm.trans taken.data_eq)
    rw [List.length_append, length_frame, messageLengthSize, List.length_nil] at hlength
    omega

theorem Taken.late_iff {got : List UInt8} {arrivals rest : List Arrival} (h : Taken got arrivals rest) :
    (∀ offset ∈ stalls arrivals, (data arrivals).length ≤ offset) ↔
      ∀ offset ∈ stalls rest, (data rest).length ≤ offset := by
  rw [h.stalls_eq, h.data_eq, List.length_append]
  constructor
  · intro hall offset hoffset
    have hle := hall _ (List.mem_map_of_mem hoffset)
    omega
  · intro hall offset hoffset
    obtain ⟨first, hfirst, rfl⟩ := List.mem_map.mp hoffset
    have hle := hall first hfirst
    omega

theorem inboundLoop_hands_iff (lawful : codec.Lawful) {fuel index : Nat} {arrivals : List Arrival}
    {peer : InboundPeer F} {envelopes : List (NetworkEnvelope PeerMessage)}
    (hfuel : arrivalsSize arrivals < fuel)
    (hdelayed : ∀ arrival ∈ arrivals, arrival.delayed)
    (hwritten : writeMessages codec envelopes = .ok (data arrivals))
    (hmagic : ∀ envelope ∈ envelopes, envelope.magic = codec.networkMagic)
    (hbudget : peer.budget.Admits clock envelopes.length) :
    (inboundLoop paqus api codec turns clock fuel index arrivals peer).handed = peer.handed ++ envelopes ↔
      AllServed paqus api codec turns clock index peer envelopes ∧
        ∀ offset ∈ stalls arrivals, (data arrivals).length ≤ offset := by
  induction envelopes generalizing fuel index arrivals peer with
  | nil =>
    have hdata : data arrivals = [] := (Except.ok.inj hwritten).symm
    refine iff_of_true ?_ ⟨trivial, fun offset _ => by rw [hdata]; exact Nat.zero_le offset⟩
    rw [List.append_nil]
    cases fuel with
    | zero => rfl
    | succ fuel =>
      unfold inboundLoop
      split
      next => rfl
      next =>
        dsimp only
        split
        next envelope rest hread => exact absurd hread (readMessage_nothing hdelayed hdata envelope rest)
        next => rfl
        next => rfl
  | cons envelope later ih =>
    obtain ⟨fuel, rfl⟩ := Nat.exists_eq_succ_of_ne_zero (Nat.ne_of_gt (Nat.lt_of_le_of_lt (Nat.zero_le _) hfuel))
    have hstop : peer.handed ≠ peer.handed ++ envelope :: later := fun h =>
      List.cons_ne_nil envelope later (List.append_right_eq_self.mp h.symm)
    by_cases hpeers : envelope.message = .getPeers
    · refine iff_of_false (fun hall => ?_) fun hserved => hserved.1.2.2.1 hpeers
      obtain ⟨more, hmore, hother⟩ := @inboundLoop_handed _ paqus api codec turns clock (fuel + 1) index arrivals peer
      rw [hall] at hmore
      exact hother envelope (List.append_cancel_left hmore ▸ List.mem_cons_self) hpeers
    unfold inboundLoop AllServed
    cases hshutdown : (turns index).shutdown with
    | true => exact iff_of_false hstop (by simp)
    | false =>
      simp only [Bool.false_eq_true, if_false]
      rcases readMessage_first lawful hdelayed hwritten (hmagic envelope List.mem_cons_self) with
        ⟨payload, rest, hread, taken, hlater⟩ | ⟨error, rest, hread, offset, hoffset, hlt⟩
      · rw [hread, taken.late_iff]
        have hsize := taken.size
        rw [length_frame, messageLengthSize] at hsize
        have hstate := @serveEnvelope_state _ paqus api codec (turns index) envelope
          { peer with budget := peer.budget.renewed clock } hbudget.1
        cases hpoisoned : (turns index).poisoned with
        | true =>
          obtain ⟨stop, next, hserve⟩ := @serveEnvelope_poisoned _ paqus api codec _ _ hpeers hpoisoned
            { peer with budget := peer.budget.renewed clock }
          rw [hserve, state_error, if_pos (.inr hpoisoned)] at hstate
          dsimp only
          rw [hserve]
          refine iff_of_false (fun hall => hstop (hstate.2.symm.trans hall)) (by simp)
        | false =>
          rw [if_neg (by simp [hpeers, hpoisoned])] at hstate
          dsimp only
          cases hserve : serveEnvelope paqus api codec (turns index) envelope
              { peer with budget := peer.budget.renewed clock } with
          | error stop next =>
            rw [hserve, state_error] at hstate
            dsimp only
            rw [hstate.2]
            cases later with
            | nil =>
              have hdata : data rest = [] := (Except.ok.inj hlater).symm
              refine iff_of_true rfl ⟨⟨trivial, rfl, hpeers, fun h => absurd rfl h⟩, fun offset _ => ?_⟩
              rw [hdata]
              exact Nat.zero_le offset
            | cons second others =>
              refine iff_of_false (fun hall => ?_) fun hserved => ?_
              · cases (List.cons.inj (List.append_cancel_left hall)).2
              · obtain ⟨_, hok, _⟩ := hserved.1.2.2.2 (List.cons_ne_nil _ _)
                cases hok
          | ok _ next =>
            rw [hserve, state_ok] at hstate
            have hnext := @ih fuel (index + 1) rest next (by omega) taken.delayed hlater
              (fun e he => hmagic e (List.mem_cons_of_mem _ he)) (hstate.1 ▸ hbudget.2)
            rw [hstate.2, List.append_assoc, List.singleton_append] at hnext
            dsimp only
            rw [hnext]
            refine and_congr_left fun _ => ⟨fun hserved => ⟨trivial, rfl, hpeers, fun _ => ⟨next, rfl, hserved⟩⟩, ?_⟩
            rintro ⟨_, _, _, hgoes⟩
            cases later with
            | nil => exact trivial
            | cons second others =>
              obtain ⟨found, hok, hserved⟩ := hgoes (List.cons_ne_nil _ _)
              cases hok
              exact hserved
      · rw [hread]
        exact iff_of_false hstop fun h => absurd (h.2 offset hoffset) (Nat.not_le_of_lt hlt)

/-- All messages that the peer writes are handed on if and only if nothing but time stands in the way of any
of them and no read times out before the last byte. -/
theorem spawnInboundPeer_hands_iff (lawful : codec.Lawful) {arrivals : List Arrival} {peer : InboundPeer F}
    {envelopes : List (NetworkEnvelope PeerMessage)} (hfresh : peer.handed = [])
    (hdelayed : ∀ arrival ∈ arrivals, arrival.delayed)
    (hwritten : writeMessages codec envelopes = .ok (data arrivals))
    (hmagic : ∀ envelope ∈ envelopes, envelope.magic = codec.networkMagic)
    (hbudget : peer.budget.Admits clock envelopes.length) :
    (spawnInboundPeer paqus api codec turns clock (arrivals ++ [.closed]) peer).handed = envelopes ↔
      AllServed paqus api codec turns clock 0 peer envelopes ∧
        ∀ offset ∈ stalls arrivals, (data arrivals).length ≤ offset := by
  have hfuel : arrivalsSize arrivals < arrivalsSize (arrivals ++ [.closed]) + 1 := by
    simp only [arrivalsSize, List.map_append, List.sum_append]
    omega
  have hloop := @inboundLoop_hands_iff _ paqus api codec turns clock lawful _ 0 _ peer _ hfuel hdelayed hwritten hmagic
    hbudget
  rw [hfresh, List.nil_append] at hloop
  rw [spawnInboundPeer, inboundLoop_closed]
  exact hloop

end Run

namespace Reference

def ping : PeerMessage := .chain (.ping 7)

def pong : PeerMessage := .chain (.pong 7)

def pingCodec : EnvelopeCodec PeerMessage where
  networkMagic := envelopeCodec.networkMagic
  toVec envelope :=
    if envelope.message = ping then envelopeCodec.toVec { envelope with message := 0 }
    else if envelope.message = pong then envelopeCodec.toVec { envelope with message := 1 }
    else .error ⟨.other, "unknown message"⟩
  tryFromSlice bytes := do
    let envelope ← envelopeCodec.tryFromSlice bytes
    if envelope.message = 0 then return { envelope with message := ping }
    else if envelope.message = 1 then return { envelope with message := pong }
    else .error ⟨.invalidData, "unknown message"⟩

theorem pingCodec_lawful : pingCodec.Lawful where
  roundTrip {envelope bytes} h := by
    obtain ⟨magic, requestId, responseTo, message⟩ := envelope
    simp only [pingCodec] at h ⊢
    split at h
    next hping =>
      subst hping
      rw [envelopeCodec_lawful.roundTrip h]
      rfl
    next =>
      split at h
      next hpong =>
        subst hpong
        rw [envelopeCodec_lawful.roundTrip h]
        rfl
      next => cases h
  canonical {envelope bytes} h := by
    obtain ⟨found, hfound, h⟩ := except_bind_eq_ok.mp h
    obtain ⟨magic, requestId, responseTo, message⟩ := found
    dsimp only at h
    split at h
    next hzero =>
      cases h
      subst hzero
      exact envelopeCodec_lawful.canonical hfound
    next =>
      split at h
      next hone =>
        cases h
        subst hone
        exact envelopeCodec_lawful.canonical hfound
      next => cases h

def pingEnvelope (requestId : UInt64) : NetworkEnvelope PeerMessage := ⟨pingCodec.networkMagic, requestId, 0, ping⟩

def quietTurn : InboundTurn ForkTree := ⟨false, id, false, [], .ok ()⟩

def pingArrivals (between : List Arrival) : List Arrival :=
  arrivalsOf (frame (encodeEnvelope ⟨envelopeCodec.networkMagic, 1, 0, 0⟩)) ++ between ++
    arrivalsOf (frame (encodeEnvelope ⟨envelopeCodec.networkMagic, 2, 0, 0⟩))

theorem spawnInboundPeer_two_pings : ∃ node, sampleRun 2 [] = .ok node ∧
    (spawnInboundPeer (protocol 2) peerApi pingCodec (fun _ => quietTurn) (fun _ => 0)
      (pingArrivals [.failed ⟨.interrupted, "EINTR"⟩] ++ [.failed ⟨.wouldBlock, "EAGAIN"⟩] ++ [.closed])
        ⟨node, ⟨0, 0, 0⟩, []⟩).handed = [pingEnvelope 1, pingEnvelope 2] := by
  obtain ⟨node, hnode⟩ : ∃ node, sampleRun 2 [] = .ok node := exists_ok (by decide +kernel)
  have hbudget : RequestBudget.Admits (fun _ => 0) 2 ⟨0, 0, 0⟩ :=
    ⟨show 1 ≤ maxPeerRequestsPerWindow by decide, show 2 ≤ maxPeerRequestsPerWindow by decide, trivial⟩
  have hserved : AllServed (protocol 2) peerApi pingCodec (fun _ => quietTurn) (fun _ => 0) 0
      ⟨node, ⟨0, 0, 0⟩, []⟩ [pingEnvelope 1, pingEnvelope 2] :=
    ⟨rfl, rfl, nofun, fun _ => ⟨_, rfl, rfl, rfl, nofun, fun h => absurd rfl h⟩⟩
  exact ⟨node, hnode, (spawnInboundPeer_hands_iff pingCodec_lawful rfl (by decide +kernel) (by decide +kernel)
    (by decide +kernel) hbudget).mpr ⟨hserved, by decide +kernel⟩⟩

/-- The peer pauses between two messages: the second one is lost. -/
theorem spawnInboundPeer_ends_at_pause :
    writeMessages pingCodec [pingEnvelope 1, pingEnvelope 2] =
        .ok (data (pingArrivals [.failed ⟨.wouldBlock, "EAGAIN"⟩])) ∧
      ∃ node, sampleRun 2 [] = .ok node ∧
        (spawnInboundPeer (protocol 2) peerApi pingCodec (fun _ => quietTurn) (fun _ => 0)
          (pingArrivals [.failed ⟨.wouldBlock, "EAGAIN"⟩] ++ [.closed]) ⟨node, ⟨0, 0, 0⟩, []⟩).handed =
            [pingEnvelope 1] :=
  ⟨by decide +kernel, exists_ok_and (by decide +kernel)⟩

end Reference

end PaqusNetwork
