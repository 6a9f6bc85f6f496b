import PaqusNetwork.Network.RequestSteps

namespace PaqusNetwork

open Effect

variable {F : Type} {link : PeerLink F}

def Receipt.answer (id : Nat) : Receipt → Option PeerMessage
  | .envelope found => if found.responseTo.toNat = id then some found.message else none
  | .timeout => none

/-- The responses for an id that are parked or still on the channel. -/
def PeerLink.replies (link : PeerLink F) (id : Nat) : List PeerMessage :=
  link.pendingResponses[id]?.toList ++ link.channel.filterMap (Receipt.answer id)

/-- How often a message is delivered, parked or still on the channel as a response for an id. -/
def PeerLink.copies (link : PeerLink F) (id : Nat) (message : PeerMessage) : Nat :=
  link.delivered.count (id, message) + (link.replies id).count message

section Copies

variable {envelope : NetworkEnvelope PeerMessage} {rest : List Receipt}

theorem replies_head (head : link.channel = .envelope envelope :: rest) (id : Nat) :
    link.replies id = link.pendingResponses[id]?.toList ++
      (if envelope.responseTo.toNat = id then [envelope.message] else []) ++ rest.filterMap (Receipt.answer id) := by
  rw [PeerLink.replies, head]
  by_cases hid : envelope.responseTo.toNat = id
  · simp [Receipt.answer, hid]
  · simp [Receipt.answer, hid]

theorem replies_parked (id key : Nat) (message : PeerMessage) :
    ((link.received rest).parked key message).replies id =
      (if key = id then some message else link.pendingResponses[id]?).toList ++
        rest.filterMap (Receipt.answer id) := by
  rw [PeerLink.replies, PeerLink.parked, OrderedMap.getElem?_insert]
  rfl

theorem replies_collected (id key : Nat) (message : PeerMessage) :
    (link.collected key message).replies id =
      (if key = id then none else link.pendingResponses[id]?).toList ++
        link.channel.filterMap (Receipt.answer id) := by
  rw [PeerLink.replies, PeerLink.collected, OrderedMap.getElem?_erase]

theorem count_delivered (delivered : List (Nat × PeerMessage)) (key id : Nat) (found message : PeerMessage) :
    (delivered ++ [(key, found)]).count (id, message) =
      delivered.count (id, message) + (if key = id then [found] else []).count message := by
  rw [List.count_append]
  by_cases hid : key = id
  · subst hid
    rw [if_pos rfl, List.count_singleton, List.count_singleton]
    simp
  · rw [if_neg hid, List.count_singleton]
    simp [hid]

end Copies

variable {low : Nat} {link next : PeerLink F}

theorem LinkStep.copies_le (h : LinkStep low link next) (id : Nat)
    (message : PeerMessage) : next.copies id message ≤ link.copies id message := by
  cases h with
  | elsewhere ids pending channel delivered =>
    rw [PeerLink.copies, PeerLink.replies, pending, channel, delivered]
    exact Nat.le_refl _
  | issued => exact Nat.le_refl _
  | @skipped receipt rest head tag =>
    have hless : (rest.filterMap (Receipt.answer id)).Sublist
        ((receipt :: rest).filterMap (Receipt.answer id)) := (List.sublist_cons_self receipt rest).filterMap _
    rw [PeerLink.copies, PeerLink.copies, PeerLink.replies, PeerLink.replies, head]
    exact Nat.add_le_add_left ((List.Sublist.append_left hless _).count_le _) _
  | @parked envelope rest head =>
    rw [PeerLink.copies, PeerLink.copies, replies_parked, replies_head head]
    refine Nat.add_le_add_left ?_ _
    by_cases hid : envelope.responseTo.toNat = id
    · rw [if_pos hid, if_pos hid, Option.toList_some]
      exact ((List.sublist_append_right _ _).append_right _).count_le _
    · rw [if_neg hid, if_neg hid, List.append_nil]
  | @received envelope rest head own =>
    have hreplies : ((link.received rest).gave envelope.responseTo.toNat envelope.message).replies id =
        link.pendingResponses[id]?.toList ++ rest.filterMap (Receipt.answer id) := rfl
    rw [PeerLink.copies, PeerLink.copies, hreplies, replies_head head, PeerLink.gave, count_delivered]
    simp only [List.count_append, PeerLink.received]
    omega
  | @collected key found own hfound =>
    rw [PeerLink.copies, PeerLink.copies, replies_collected, PeerLink.collected, count_delivered, PeerLink.replies]
    by_cases hid : key = id
    · subst hid
      rw [if_pos rfl, if_pos rfl, hfound, Option.toList_none, Option.toList_some, List.nil_append, List.count_append]
      omega
    · rw [if_neg hid, if_neg hid]
      exact Nat.le_refl _

theorem copies_invariant (start : PeerLink F) :
    LinkInvariant 0 fun link : PeerLink F => ∀ id message, link.copies id message ≤ start.copies id message :=
  ⟨fun hstep hlink id message => Nat.le_trans (hstep.copies_le id message) (hlink id message), fun _ => Nat.zero_le _⟩

theorem LinkStep.replies_eq {id : Nat} {message : PeerMessage} (h : LinkStep (id + 1) link next) (hpos : 0 < id)
    (hreplies : link.replies id = [message]) : next.replies id = [message] := by
  cases h with
  | elsewhere ids pending channel delivered => rwa [PeerLink.replies, pending, channel]
  | issued => exact hreplies
  | @skipped receipt rest head tag =>
    have hother : Receipt.answer id receipt = none := by
      cases receipt with
      | timeout => rfl
      | envelope found => exact if_neg fun h => absurd (h.symm.trans tag) (Nat.ne_of_gt hpos)
    rw [PeerLink.replies, head, List.filterMap_cons_none hother] at hreplies
    exact hreplies
  | @parked envelope rest head =>
    rw [replies_head head] at hreplies
    rw [replies_parked]
    by_cases hid : envelope.responseTo.toNat = id
    · rw [if_pos hid] at hreplies ⊢
      cases hpending : link.pendingResponses[id]? with
      | none => rwa [hpending] at hreplies
      | some old =>
        rw [hpending] at hreplies
        cases (List.cons.inj hreplies).2
    · rw [if_neg hid] at hreplies ⊢
      rwa [List.append_nil] at hreplies
  | @received envelope rest head own =>
    rw [replies_head head, if_neg (by omega), List.append_nil] at hreplies
    exact hreplies
  | @collected key found own hfound =>
    rw [replies_collected, if_neg (by omega)]
    exact hreplies

theorem awaits_invariant {id : Nat} (hpos : 0 < id) (message : PeerMessage) :
    LinkInvariant (id + 1) fun link : PeerLink F => link.replies id = [message] ∧ id < link.requestIds where
  step hstep hlink := ⟨hstep.replies_eq hpos hlink.1, Nat.lt_of_lt_of_le hlink.2 hstep.ids_le⟩
  low_le hlink := hlink.2

theorem LinkStep.delivered_grows (h : LinkStep low link next) : link.delivered <+: next.delivered := by
  cases h with
  | elsewhere ids pending channel delivered => exact delivered ▸ List.prefix_rfl
  | issued => exact List.prefix_rfl
  | skipped head tag => exact List.prefix_rfl
  | parked head => exact List.prefix_rfl
  | received head own => exact List.prefix_append _ _
  | collected own found => exact List.prefix_append _ _

theorem delivered_invariant (start : PeerLink F) :
    LinkInvariant 0 fun link : PeerLink F => start.delivered <+: link.delivered :=
  ⟨fun hstep hlink => hlink.trans hstep.delivered_grows, fun _ => Nat.zero_le _⟩

theorem LinkInvariant.and {I J : PeerLink F → Prop} (hI : LinkInvariant low I)
    (hJ : LinkInvariant low J) : LinkInvariant low fun link => I link ∧ J link :=
  ⟨fun hstep hlink => ⟨hI.step hstep hlink.1, hJ.step hstep hlink.2⟩, fun hlink => hI.low_le hlink.1⟩

variable {message : PeerMessage}

/-- The turns of a call until it takes its response: neither the shutdown flag nor the clock nor another
message stops it. -/
inductive Undisturbed (env : LinkEnv F) (handle : UInt64 → PeerMessage → LinkM F Unit) (id deadline : Nat) :
    PeerLink F → Prop
  | parked {link : PeerLink F} {message : PeerMessage} (found : link.pendingResponses[id]? = some message) :
      Undisturbed env handle id deadline link
  | arrived {link : PeerLink F} {envelope : NetworkEnvelope PeerMessage} {rest : List Receipt}
      (waits : link.Waits env deadline) (head : link.channel = .envelope envelope :: rest)
      (own : envelope.responseTo.toNat = id) : Undisturbed env handle id deadline link
  | timeout {link : PeerLink F} {rest : List Receipt} (waits : link.Waits env deadline)
      (head : link.channel = .timeout :: rest)
      (later : Undisturbed env handle id deadline (link.looked.received rest)) :
      Undisturbed env handle id deadline link
  | other {link : PeerLink F} {envelope : NetworkEnvelope PeerMessage} {rest : List Receipt}
      (waits : link.Waits env deadline) (head : link.channel = .envelope envelope :: rest)
      (other : envelope.responseTo.toNat ≠ id) (response : envelope.responseTo ≠ 0)
      (later : Undisturbed env handle id deadline
        ((link.looked.received rest).parked envelope.responseTo.toNat envelope.message)) :
      Undisturbed env handle id deadline link
  | unsolicited {link next : PeerLink F} {envelope : NetworkEnvelope PeerMessage} {rest : List Receipt}
      (waits : link.Waits env deadline) (head : link.channel = .envelope envelope :: rest)
      (unsolicited : envelope.responseTo = 0)
      (handled : handle envelope.requestId envelope.message (link.looked.received rest) = .ok () next)
      (later : Undisturbed env handle id deadline next) : Undisturbed env handle id deadline link

section Returns

variable {env : LinkEnv F} {handle : UInt64 → PeerMessage → LinkM F Unit} {depth id : Nat} {deadline : Nat}

theorem not_undisturbed (hpending : link.pendingResponses[id]? = none)
    (h : ¬link.Waits env deadline) : ¬Undisturbed env handle id deadline link := by
  intro hturns
  cases hturns with
  | parked found => rw [hpending] at found; cases found
  | arrived waits head own => exact h waits
  | timeout waits head later => exact h waits
  | other waits head other response later => exact h waits
  | unsolicited waits head unsolicited handled later => exact h waits

theorem undisturbed_turn (hpending : link.pendingResponses[id]? = none) (hwaits : link.Waits env deadline) :
    Undisturbed env handle id deadline link ↔
      match link.channel with
      | [] => False
      | .timeout :: rest => Undisturbed env handle id deadline (link.looked.received rest)
      | .envelope envelope :: rest =>
        envelope.responseTo.toNat = id ∨
          (envelope.responseTo ≠ 0 ∧ Undisturbed env handle id deadline
            ((link.looked.received rest).parked envelope.responseTo.toNat envelope.message)) ∨
          (envelope.responseTo = 0 ∧ ∃ next, handle envelope.requestId envelope.message (link.looked.received rest) =
            .ok () next ∧ Undisturbed env handle id deadline next) := by
  constructor
  · intro hturns
    cases hturns with
    | parked found => rw [hpending] at found; cases found
    | arrived waits head own =>
      rw [head]
      exact .inl own
    | timeout waits head later =>
      rw [head]
      exact later
    | other waits head other response later =>
      rw [head]
      exact .inr (.inl ⟨response, later⟩)
    | unsolicited waits head unsolicited handled later =>
      rw [head]
      exact .inr (.inr ⟨unsolicited, _, handled, later⟩)
  · intro hturn
    split at hturn
    next => exact hturn.elim
    next rest hchannel => exact .timeout hwaits hchannel hturn
    next envelope rest hchannel =>
      by_cases hid : envelope.responseTo.toNat = id
      · exact .arrived hwaits hchannel hid
      · rcases hturn with hown | ⟨hresponse, hlater⟩ | ⟨hzero, next, hhandled, hlater⟩
        · exact absurd hown hid
        · exact .other hwaits hchannel hid hresponse hlater
        · exact .unsolicited hwaits hchannel hzero hhandled hlater

theorem awaitResponse_returns_iff (hhandle : ∀ requestId message, Routes depth (handle requestId message))
    (hpos : 0 < id) (deadline : Nat) {fuel : Nat}
    (hlink : link.replies id = [message] ∧ id < link.requestIds) (hdepth : link.channel.length ≤ depth)
    (hfuel : link.channel.length < fuel) :
    (∃ next, awaitResponse env handle id deadline fuel link = .ok message next) ↔
      Undisturbed env handle id deadline link := by
  induction fuel generalizing link with
  | zero => exact absurd hfuel (Nat.not_lt_zero _)
  | succ fuel ih =>
    have hI := @awaits_invariant F id hpos message
    have hreplies := hlink.1
    cases hpending : link.pendingResponses[id]? with
    | some found =>
      rw [PeerLink.replies, hpending] at hreplies
      obtain rfl := (List.cons.inj hreplies).1
      rw [awaitResponse_pending hpending]
      exact iff_of_true ⟨_, rfl⟩ (.parked hpending)
    | none =>
      by_cases hwaits : link.Waits env deadline
      · have hlooked : link.looked.replies id = [message] ∧ id < link.looked.requestIds := hlink
        rw [awaitResponse_turn hpending hwaits, undisturbed_turn hpending hwaits]
        cases hchannel : link.channel with
        | nil =>
          rw [PeerLink.replies, hpending, hchannel] at hreplies
          cases hreplies
        | cons receipt rest =>
          have hhead : link.looked.channel = receipt :: rest := hchannel
          have hshort : rest.length < fuel := by
            rw [hchannel, List.length_cons] at hfuel
            omega
          rw [hchannel, List.length_cons] at hdepth
          cases receipt with
          | timeout => exact ih (hI.step (.skipped hhead rfl) hlooked) (Nat.le_of_lt hdepth) hshort
          | envelope found =>
            dsimp only
            split
            next hown =>
              rw [replies_head hchannel, hpending, if_pos hown] at hreplies
              obtain rfl := (List.cons.inj hreplies).1
              exact iff_of_true ⟨_, rfl⟩ (.inl hown)
            next hother =>
            split
            next hresponse =>
              rw [ih (hI.step (.parked hhead) hlooked) (Nat.le_of_lt hdepth) hshort]
              simp [hother, hresponse]
            next hzero =>
              have hzero := Decidable.not_not.mp hzero
              have hpopped := hI.step (.skipped hhead (congrArg UInt64.toNat hzero)) hlooked
              obtain ⟨hkept, -⟩ := hhandle found.requestId found.message _ _ (hI.bounded rest.length)
                (fun next hnext => Nat.lt_of_le_of_lt hnext.2 hdepth) (link.looked.received rest)
                ⟨hpopped, Nat.le_refl _⟩
              rw [or_iff_right hother, or_iff_right fun h => absurd hzero h.1, and_iff_right hzero]
              cases hrun : handle found.requestId found.message (link.looked.received rest) with
              | error error next =>
                rw [bind_error hrun]
                exact iff_of_false (by rintro ⟨_, h⟩; cases h) (by rintro ⟨_, h, _⟩; cases h)
              | ok _ next =>
                rw [hrun, state_ok] at hkept
                rw [bind_ok hrun, ih hkept.1 (Nat.le_trans hkept.2 (Nat.le_of_lt hdepth))
                  (Nat.lt_of_le_of_lt hkept.2 hshort)]
                refine ⟨fun hlater => ⟨next, rfl, hlater⟩, ?_⟩
                rintro ⟨found, heq, hlater⟩
                cases heq
                exact hlater
      · obtain ⟨text, moments, hstopped⟩ := @awaitResponse_stopped _ env handle _ _ fuel _ hpending hwaits
        rw [hstopped]
        exact iff_of_false (by rintro ⟨_, h⟩; cases h) (not_undisturbed hpending hwaits)

end Returns

section Calls

variable (paqus : Paqus F) (api : PeerApi) (env : LinkEnv F)

/-- The request of a call is sent, and nothing disturbs the call until its response has come. -/
def Answerable (depth : Nat) (message : PeerMessage) (link : PeerLink F) : Prop :=
  ∃ id deadline opened, openRequest api env message link = .ok (id, deadline) opened ∧
    Undisturbed env (handleUnsolicited paqus api env (requestWithin paqus api env depth)) id deadline opened

variable {paqus api env} {depth : Nat} {reply : PeerMessage}

theorem requestWithin_returns_iff (hdepth : link.channel.length ≤ depth) (hpos : 0 < link.requestIds)
    (hreplies : link.replies link.requestIds = [reply]) :
    (∃ next, requestWithin paqus api env (depth + 1) message link = .ok reply next) ↔
      Answerable paqus api env depth message link := by
  unfold requestWithin Answerable
  cases hopen : openRequest api env message link with
  | error error next =>
    rw [bind_error hopen]
    exact iff_of_false (by rintro ⟨_, h⟩; cases h) (by rintro ⟨_, _, _, h, _⟩; cases h)
  | ok call opened =>
    obtain ⟨id, deadline⟩ := call
    obtain ⟨rfl, _, _, _, _, _, hopened⟩ := openRequest_ok hopen
    have hawaits : opened.replies link.requestIds = [reply] ∧ link.requestIds < opened.requestIds := by
      rw [hopened]
      exact ⟨hreplies, Nat.lt_succ_self _⟩
    have hchannel : opened.channel.length ≤ depth := by rwa [hopened]
    rw [bind_ok hopen]
    dsimp only
    rw [get_bind, awaitResponse_returns_iff
      (handleUnsolicited_routes (requestWithin_routes paqus api env depth)) hpos deadline hawaits
      hchannel (Nat.lt_succ_self _)]
    refine ⟨fun h => ⟨_, _, _, rfl, h⟩, ?_⟩
    rintro ⟨_, _, _, heq, h⟩
    cases heq
    exact h

/-- A call passes over the receipt, whatever the node holds: a time-out, a response to another call, or, without
a node, a message that the peer sends on its own. -/
def Receipt.passes (attached : Bool) : Receipt → Bool
  | .timeout => true
  | .envelope found => found.responseTo ≠ 0 || match found.message with
    | .compactBlock _ => false
    | _ => !attached

/-- A call passes over all that stands on the channel before the response for an id. -/
def PeerLink.passes (link : PeerLink F) (id : Nat) : Bool :=
  (link.channel.takeWhile fun receipt => (receipt.answer id).isNone).all (·.passes link.attached)

/-- No shutdown is requested, no write fails, and no call comes to its deadline. -/
structure LinkEnv.Running (env : LinkEnv F) : Prop where
  running : ∀ moment, env.shutdown moment = false
  writes : ∀ moment envelope, env.write moment envelope = .ok ()
  early : ∀ opened moment, env.now moment < env.now opened + persistentPeerTimeout

theorem handleUnsolicited_passes {request : PeerMessage → LinkM F PeerMessage} {requestId : UInt64}
    {found : NetworkEnvelope PeerMessage} (hzero : found.responseTo = 0)
    (h : Receipt.passes link.attached (.envelope found) = true) :
    handleUnsolicited paqus api env request requestId found.message link = .ok () link := by
  simp only [Receipt.passes, hzero, ne_eq, not_true_eq_false, decide_false, Bool.false_or] at h
  split at h
  next => cases h
  next hother =>
    rw [handleUnsolicited, get_bind, if_pos h]
    · rfl
    · exact hother

theorem undisturbed_of_passes {request : PeerMessage → LinkM F PeerMessage} {id deadline : Nat}
    (hwaits : ∀ link : PeerLink F, link.Waits env deadline) (hpasses : link.passes id = true)
    (hsent : link.channel.filterMap (Receipt.answer id) ≠ []) :
    Undisturbed env (handleUnsolicited paqus api env request) id deadline link := by
  generalize hchannel : link.channel = channel at hsent
  induction channel generalizing link with
  | nil => exact absurd rfl hsent
  | cons receipt rest ih =>
    rw [PeerLink.passes, hchannel, List.takeWhile_cons] at hpasses
    cases hown : receipt.answer id with
    | none =>
      rw [hown, Option.isNone_none, if_pos rfl, List.all_cons, Bool.and_eq_true] at hpasses
      rw [List.filterMap_cons_none hown] at hsent
      cases receipt with
      | timeout => exact .timeout (hwaits _) hchannel (ih hpasses.2 rfl hsent)
      | envelope found =>
        by_cases hzero : found.responseTo = 0
        · have hlater := @ih (link.looked.received rest) hpasses.2 rfl hsent
          exact .unsolicited (hwaits _) hchannel hzero (handleUnsolicited_passes hzero hpasses.1) hlater
        · exact .other (hwaits _) hchannel (by simpa [Receipt.answer] using hown) hzero (ih hpasses.2 rfl hsent)
    | some message =>
      cases receipt with
      | timeout => cases hown
      | envelope found =>
        refine .arrived (hwaits _) hchannel (of_not_not fun hother => ?_)
        rw [Receipt.answer, if_neg hother] at hown
        cases hown

theorem answerable_of_passes (henv : env.Running) (hbudget : link.budget.requestCount < maxPeerRequestsPerWindow)
    (hreplies : link.replies link.requestIds = [reply]) (hpasses : link.passes link.requestIds = true) :
    Answerable paqus api env depth message link := by
  obtain ⟨budget, hcheck, -⟩ := @checkRequestBudget_room "peer request rate limit exceeded" env.windowClock
    link.budget hbudget
  have hopen := @openRequest_eq F link message env api
  rw [henv.running, if_neg Bool.false_ne_true, hcheck] at hopen
  dsimp only at hopen
  rw [henv.writes] at hopen
  refine ⟨_, _, _, hopen, ?_⟩
  cases hpending : link.pendingResponses[link.requestIds]? with
  | some found => exact .parked hpending
  | none =>
    rw [PeerLink.replies, hpending, Option.toList_none, List.nil_append] at hreplies
    exact undisturbed_of_passes (fun _ => ⟨henv.running _, henv.early _ _⟩) hpasses (by simp only [hreplies]; simp)

theorem requestWithin_own (hdepth : link.channel.length < depth)
    (h : requestWithin paqus api env depth message link = .ok reply next) :
    next.delivered.getLast? = some (link.requestIds, reply) ∧ reply ∈ link.replies link.requestIds := by
  cases depth with
  | zero => exact absurd hdepth (Nat.not_lt_zero _)
  | succ depth =>
    have hI := ((copies_invariant link).and (delivered_invariant link)).bounded depth
    have hsettled := requestWithin_settled paqus api env (requestWithin_routes paqus api env depth) hI
      (fun link hlink => hlink.2) message ⟨⟨fun _ _ => Nat.le_refl _, List.prefix_rfl⟩, Nat.le_of_lt_succ hdepth⟩
    rw [h] at hsettled
    obtain ⟨⟨⟨hcopies, -⟩, -⟩, before, ⟨⟨-, hgrown⟩, -⟩, hdelivered⟩ := hsettled
    refine ⟨by rw [hdelivered, List.getLast?_concat], List.count_pos_iff.mp ?_⟩
    have hle := hcopies link.requestIds reply
    have hold := hgrown.sublist.count_le (link.requestIds, reply)
    rw [PeerLink.copies, PeerLink.copies, hdelivered, List.count_append, List.count_singleton_self] at hle
    omega

def linkCalls (paqus : Paqus F) (api : PeerApi) (env : LinkEnv F) : List PeerMessage → PeerLink F → PeerLink F
  | [], link => link
  | message :: messages, link => linkCalls paqus api env messages (state (requestOnLink paqus api env message link))

theorem linkCalls_copies (messages : List PeerMessage) (link : PeerLink F) (id : Nat) (reply : PeerMessage) :
    (linkCalls paqus api env messages link).copies id reply ≤ link.copies id reply := by
  induction messages generalizing link with
  | nil => exact Nat.le_refl _
  | cons message messages ih =>
    have hcall := (requestWithin_routes paqus api env (link.channel.length + 1) message 0 _
      ((copies_invariant link).bounded link.channel.length) (fun _ hlink => Nat.lt_succ_of_le hlink.2) link
      ⟨fun _ _ => Nat.le_refl _, Nat.le_refl _⟩).1.1
    exact Nat.le_trans (ih _) (hcall id reply)

end Calls

/-- On a new connection each call returns only what was tagged with its own id, no response is delivered more
often than it was sent, and a call returns if and only if nothing disturbs it; on a connection that runs on, the
channel before the call shows that nothing will. -/
theorem request_matches (paqus : Paqus F) (api : PeerApi) (env : LinkEnv F) :
    (∀ messages link id reply, link.delivered = [] → link.pendingResponses = ∅ →
        (linkCalls paqus api env messages link).delivered.count (id, reply) ≤
          (link.channel.filterMap (Receipt.answer id)).count reply) ∧
      (∀ depth message reply link next, link.channel.length < depth →
        requestWithin paqus api env depth message link = .ok reply next →
          next.delivered.getLast? = some (link.requestIds, reply) ∧ reply ∈ link.replies link.requestIds) ∧
      (∀ depth message link next, link.channel.length < depth →
        requestWithin paqus api env depth message link ≠ .error .fuel next) ∧
      ∀ depth message reply link, link.channel.length ≤ depth → 0 < link.requestIds →
        link.replies link.requestIds = [reply] →
          ((∃ next, requestWithin paqus api env (depth + 1) message link = .ok reply next) ↔
            Answerable paqus api env depth message link) ∧
          (env.Running → link.budget.requestCount < maxPeerRequestsPerWindow → link.passes link.requestIds = true →
            ∃ next, requestWithin paqus api env (depth + 1) message link = .ok reply next) := by
  refine ⟨fun messages link id reply hdelivered hpending => ?_, fun _ _ _ _ _ => requestWithin_own,
    fun depth message link next hdepth herror => ?_, fun depth message reply link hdepth hpos hreplies => ?_⟩
  · have hle := @linkCalls_copies _ paqus api env messages link id reply
    have hfirst : link.replies id = link.channel.filterMap (Receipt.answer id) := by
      rw [PeerLink.replies, hpending, Std.ExtTreeMap.getElem?_empty]
      rfl
    rw [PeerLink.copies, PeerLink.copies, hdelivered, hfirst, List.count_nil] at hle
    omega
  · cases depth with
    | zero => exact absurd hdepth (Nat.not_lt_zero _)
    | succ depth =>
      have hobeys := requestWithin_routes paqus api env (depth + 1) message 0 _
        ((delivered_invariant link).bounded depth) (fun _ hlink => Nat.lt_succ_of_le hlink.2) link
        ⟨List.prefix_rfl, Nat.le_of_lt_succ hdepth⟩
      exact hobeys.2 _ _ herror
  · have hreturns := @requestWithin_returns_iff F link message paqus api env depth reply hdepth hpos hreplies
    exact ⟨hreturns, fun henv hbudget hpasses => hreturns.mpr (answerable_of_passes henv hbudget hreplies hpasses)⟩

namespace Reference

def quietEnv : LinkEnv ForkTree where
  shutdown _ := false
  now _ := 0
  windowClock _ := 0
  write _ _ := .ok ()
  poisoned _ := false
  meanwhile _ node := node
  networkText _ := "handle failed"
  nodeText _ := "apply failed"
  compactText _ := "compact failed"
  codecText _ := "codec failed"

def newLink (channel : List Receipt) (node : Node ForkTree) : PeerLink ForkTree :=
  { PeerLink.connect node 0 channel with attached := true }

def receiptOf (requestId responseTo : UInt64) (message : PeerMessage) : Receipt :=
  .envelope ⟨peerApi.params.networkMagic, requestId, responseTo, message⟩

def busyChannel : List Receipt :=
  [receiptOf 9 0 (.chain (.ping 1)), .timeout, receiptOf 0 7 .getPeers, receiptOf 0 1 (.chain (.pong 5))]

theorem busyChannel_returns : ∃ node, sampleRun 2 [] = .ok node ∧
    (∃ next, requestWithin (protocol 2) peerApi quietEnv 5 (.chain (.ping 5)) (newLink busyChannel node) =
      .ok (.chain (.pong 5)) next ∧ next.delivered.getLast? = some (1, .chain (.pong 5))) ∧
    (∃ next, requestWithin (protocol 2) peerApi quietEnv 5 (.chain (.ping 5)) (.connect node 0 busyChannel) =
      .ok (.chain (.pong 5)) next) ∧
    (linkCalls (protocol 2) peerApi quietEnv [.chain (.ping 5), .getPeers] (newLink busyChannel node)).delivered.count
      (1, .chain (.pong 5)) ≤ 1 := by
  obtain ⟨node, hnode⟩ : ∃ node, sampleRun 2 [] = .ok node := exists_ok (by decide +kernel)
  obtain ⟨hcounted, hown, -, hreturns⟩ := request_matches (protocol 2) peerApi quietEnv
  have hrunning : quietEnv.Running :=
    ⟨fun _ => rfl, fun _ _ => rfl, fun _ _ => show 0 < 0 + persistentPeerTimeout by decide⟩
  have hwaits : ∀ link : PeerLink ForkTree, link.Waits quietEnv (quietEnv.now 1 + persistentPeerTimeout) :=
    fun _ => ⟨rfl, hrunning.early 1 _⟩
  have hanswerable : Answerable (protocol 2) peerApi quietEnv 4 (.chain (.ping 5)) (newLink busyChannel node) :=
    ⟨1, _, _, rfl, .unsolicited (hwaits _) rfl rfl rfl
      (.timeout (hwaits _) rfl (.other (hwaits _) rfl (by decide) (by decide) (.arrived (hwaits _) rfl rfl)))⟩
  obtain ⟨next, hnext⟩ := (hreturns 4 (.chain (.ping 5)) (.chain (.pong 5)) (newLink busyChannel node)
    (Nat.le_refl 4) Nat.one_pos rfl).1.mpr hanswerable
  have hwithout := (hreturns 4 (.chain (.ping 5)) (.chain (.pong 5)) (.connect node 0 busyChannel) (Nat.le_refl 4)
    Nat.one_pos rfl).2 hrunning (show 0 < maxPeerRequestsPerWindow by decide) rfl
  exact ⟨node, hnode, ⟨next, hnext, (hown 5 _ _ (newLink busyChannel node) _ (Nat.lt_succ_self 4) hnext).1⟩, hwithout,
    hcounted [.chain (.ping 5), .getPeers] (newLink busyChannel node) 1 (.chain (.pong 5)) rfl rfl⟩

def wrongBlock : Block :=
  { (Tip.genesis.next 101 1 []).block with
    header := { (Tip.genesis.next 101 1 []).block.header with stateRoot := 999 } }

/-- The peer sends the block on its own, and then the response: the call fails with the error of the block. -/
theorem request_fails_for_other_message : ∃ node, sampleRun 2 [] = .ok node ∧
    (newLink [receiptOf 9 0 (.chain (.block wrongBlock)), receiptOf 0 1 (.chain (.pong 5))] node).replies 1 =
      [.chain (.pong 5)] ∧
    outcome (requestOnLink (protocol 2) peerApi quietEnv (.chain (.ping 5))
      (newLink [receiptOf 9 0 (.chain (.block wrongBlock)), receiptOf 0 1 (.chain (.pong 5))] node)) =
        .error (.failed "unsolicited message handling failed: handle failed") := by
  obtain ⟨node, hnode⟩ : ∃ node, sampleRun 2 [] = .ok node := exists_ok (by decide +kernel)
  exact ⟨node, hnode, rfl, of_ok hnode (by decide +kernel)⟩

end Reference

end PaqusNetwork
