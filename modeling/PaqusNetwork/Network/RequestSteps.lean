import PaqusNetwork.Network.Requests

namespace PaqusNetwork

open Effect

variable {F : Type} {low : Nat} {next : PeerLink F}

def Receipt.tag : Receipt → Nat
  | .envelope found => found.responseTo.toNat
  | .timeout => 0

/-- The changes of the responses that calls with ids from `low` on make. -/
inductive LinkStep (low : Nat) : PeerLink F → PeerLink F → Prop
  | elsewhere {link next : PeerLink F} (ids : next.requestIds = link.requestIds)
      (pending : next.pendingResponses = link.pendingResponses) (channel : next.channel = link.channel)
      (delivered : next.delivered = link.delivered) : LinkStep low link next
  | issued (link : PeerLink F) : LinkStep low link { link with requestIds := link.requestIds + 1 }
  | skipped {link : PeerLink F} {receipt : Receipt} {rest : List Receipt} (head : link.channel = receipt :: rest)
      (tag : receipt.tag = 0) : LinkStep low link (link.received rest)
  | parked {link : PeerLink F} {envelope : NetworkEnvelope PeerMessage} {rest : List Receipt}
      (head : link.channel = .envelope envelope :: rest) :
      LinkStep low link ((link.received rest).parked envelope.responseTo.toNat envelope.message)
  | received {link : PeerLink F} {envelope : NetworkEnvelope PeerMessage} {rest : List Receipt}
      (head : link.channel = .envelope envelope :: rest) (own : low ≤ envelope.responseTo.toNat) :
      LinkStep low link ((link.received rest).gave envelope.responseTo.toNat envelope.message)
  | collected {link : PeerLink F} {id : Nat} {message : PeerMessage} (own : low ≤ id)
      (found : link.pendingResponses[id]? = some message) :
      LinkStep low link (link.collected id message)

structure LinkInvariant (low : Nat) (I : PeerLink F → Prop) : Prop where
  step : ∀ {link next}, LinkStep low link next → I link → I next
  low_le : ∀ {link}, I link → low ≤ link.requestIds

variable {link : PeerLink F}

theorem LinkStep.channel_le (h : LinkStep low link next) : next.channel.length ≤ link.channel.length := by
  cases h with
  | elsewhere ids pending channel delivered => rw [channel]
  | issued => exact Nat.le_refl _
  | skipped head tag =>
    rw [head, List.length_cons]
    exact Nat.le_succ _
  | parked head =>
    rw [head, List.length_cons]
    exact Nat.le_succ _
  | received head own =>
    rw [head, List.length_cons]
    exact Nat.le_succ _
  | collected own found => exact Nat.le_refl _

theorem LinkStep.ids_le (h : LinkStep low link next) : link.requestIds ≤ next.requestIds := by
  cases h with
  | elsewhere ids pending channel delivered => rw [ids]
  | issued => exact Nat.le_succ _
  | skipped head tag => exact Nat.le_refl _
  | parked head => exact Nat.le_refl _
  | received head own => exact Nat.le_refl _
  | collected own found => exact Nat.le_refl _

/-- The property is one of the ids and the responses alone. -/
def OfResponses (I : PeerLink F → Prop) : Prop :=
  ∀ {link next : PeerLink F}, I link → next.requestIds = link.requestIds →
    next.pendingResponses = link.pendingResponses → next.channel = link.channel →
      next.delivered = link.delivered → I next

variable {I : PeerLink F → Prop}

theorem LinkInvariant.elsewhere (h : LinkInvariant low I) : OfResponses I :=
  fun hlink ids pending channel delivered => h.step (.elsewhere ids pending channel delivered) hlink

theorem LinkInvariant.bounded (h : LinkInvariant low I) (bound : Nat) :
    LinkInvariant low fun link => I link ∧ link.channel.length ≤ bound :=
  ⟨fun hstep hlink => ⟨h.step hstep hlink.1, Nat.le_trans hstep.channel_le hlink.2⟩, fun hlink => h.low_le hlink.1⟩

def LinkError.IsFailure : LinkError → Prop
  | .failed _ => True
  | .fuel => False

theorem failed_isFailure (text : String) : (LinkError.failed text).IsFailure := trivial

/-- From fewer receipts than `depth` the program keeps every invariant, and the depth is enough for it. -/
def Routes {α : Type} (depth : Nat) (x : LinkM F α) : Prop :=
  ∀ low I, LinkInvariant low I → (∀ link, I link → link.channel.length < depth) → Obeys I LinkError.IsFailure x

section Elsewhere

variable (hI : OfResponses I) (env : LinkEnv F)

include hI

theorem moment_obeys : Obeys I LinkError.IsFailure (moment : LinkM F Nat) :=
  Obeys.get.bind fun _ =>
    Obeys.bind (Obeys.modify fun _ hlink => hI hlink rfl rfl rfl rfl) fun _ => Obeys.pure _

theorem ensureRunning_obeys : Obeys I LinkError.IsFailure (ensureRunning env) :=
  (moment_obeys hI).bind fun _ => Obeys.ensure (failed_isFailure _) _

theorem linkBudget_obeys : Obeys I LinkError.IsFailure (linkBudget env) := by
  refine Obeys.focus (fun _ _ hlink => ?_) failed_isFailure _
  exact hI hlink rfl rfl rfl rfl

theorem writeEnvelope_obeys (text : String) (envelope : NetworkEnvelope PeerMessage) :
    Obeys I LinkError.IsFailure (writeEnvelope env text envelope) :=
  (moment_obeys hI).bind fun _ => (Obeys.liftExcept (fun _ => failed_isFailure _) _).bind fun _ =>
    Obeys.modify fun _ hlink => hI hlink rfl rfl rfl rfl

theorem sendOnLink_obeys (api : PeerApi) (message : PeerMessage) :
    Obeys I LinkError.IsFailure (sendOnLink api env message) :=
  (ensureRunning_obeys hI env).bind fun _ =>
    (linkBudget_obeys hI env).bind fun _ => writeEnvelope_obeys hI env _ _

theorem underLock_obeys {ε α : Type} {text : ε → LinkError} (htext : ∀ error, (text error).IsFailure)
    (given : Node F → List Block) (program : EStateM ε (Node F) α) :
    Obeys I LinkError.IsFailure (underLock env text given program) := by
  refine (moment_obeys hI).bind fun _ => (Obeys.ensure (failed_isFailure _) _).bind fun _ => ?_
  refine Obeys.bind (Obeys.modify fun _ hlink => ?_) fun _ => Obeys.bind (Obeys.modify fun _ hlink => ?_) fun _ => ?_
  · exact hI hlink rfl rfl rfl rfl
  · exact hI hlink rfl rfl rfl rfl
  · refine Obeys.focus (fun _ _ hlink => ?_) htext _
    exact hI hlink rfl rfl rfl rfl

theorem reconstructUnderLock_obeys (paqus : Paqus F) (compact : CompactBlock)
    (supplied : List IndexedBlockTransaction) :
    Obeys I LinkError.IsFailure (reconstructUnderLock paqus env compact supplied) :=
  underLock_obeys hI env failed_isFailure _ _

theorem applyUnderLock_obeys (paqus : Paqus F) (text : String) (block : Block) :
    Obeys I LinkError.IsFailure (applyUnderLock paqus env text block) :=
  underLock_obeys hI env (fun _ => failed_isFailure _) _ _

end Elsewhere

section Handlers

variable {paqus : Paqus F} {api : PeerApi} {env : LinkEnv F} {depth : Nat}
  {request : PeerMessage → LinkM F PeerMessage} (hrequest : ∀ message, Routes depth (request message))

include hrequest

theorem fetchFullCompactFallback_routes (blockHash : BlockHash) :
    Routes depth (fetchFullCompactFallback paqus env request blockHash) := by
  intro low I hI hdepth
  refine (hrequest _ low I hI hdepth).bind fun response => ?_
  refine (Obeys.liftExcept failed_isFailure _).bind fun block => ?_
  refine (Obeys.liftExcept (fun _ => failed_isFailure _) _).bind fun hash => ?_
  refine (Obeys.ensure (failed_isFailure _) _).bind fun _ => ?_
  exact applyUnderLock_obeys hI.elsewhere env paqus _ _

theorem recoverCompactBlock_routes (compact : CompactBlock) (blockHash : BlockHash) (missing : List Nat) :
    Routes depth (recoverCompactBlock paqus env request compact blockHash missing) := by
  intro low I hI hdepth
  have hfallback := @fetchFullCompactFallback_routes _ paqus env _ _ hrequest blockHash low I hI hdepth
  refine (Obeys.attempt (hrequest _ low I hI hdepth)).bind fun response => ?_
  split
  · split
    · exact hfallback
    · refine (reconstructUnderLock_obeys hI.elsewhere env paqus _ _).bind fun result => ?_
      split
      · exact applyUnderLock_obeys hI.elsewhere env paqus _ _
      · exact hfallback
  · exact hfallback

theorem handleCompactBlock_routes (compact : CompactBlock) :
    Routes depth (handleCompactBlock paqus env request compact) := by
  intro low I hI hdepth
  refine (Obeys.liftExcept (fun _ => failed_isFailure _) _).bind fun blockHash => ?_
  have hfallback := @fetchFullCompactFallback_routes _ paqus env _ _ hrequest blockHash low I hI hdepth
  refine Obeys.get.bind fun link => ?_
  split
  · exact Obeys.pure _
  · refine (reconstructUnderLock_obeys hI.elsewhere env paqus _ _).bind fun result => ?_
    split
    · exact applyUnderLock_obeys hI.elsewhere env paqus _ _
    · split
      · exact hfallback
      · exact recoverCompactBlock_routes hrequest _ _ _ low I hI hdepth
    · exact hfallback

theorem fetchInventory_routes (items : List InventoryItem) :
    Routes depth (fetchInventory paqus api env request items) := by
  intro low I hI hdepth
  refine (hrequest _ low I hI hdepth).bind fun data => ?_
  refine (underLock_obeys hI.elsewhere env (fun _ => failed_isFailure _) _ _).bind fun followUp => ?_
  cases followUp with
  | none => exact Obeys.pure _
  | some followUp => exact sendOnLink_obeys hI.elsewhere env api followUp

theorem handleUnsolicited_routes (requestId : UInt64) (message : PeerMessage) :
    Routes depth (handleUnsolicited paqus api env request requestId message) := by
  intro low I hI hdepth
  unfold handleUnsolicited
  split
  · exact handleCompactBlock_routes hrequest _ low I hI hdepth
  · refine Obeys.get.bind fun link => ?_
    split
    · exact Obeys.pure _
    · refine (underLock_obeys hI.elsewhere env (fun _ => failed_isFailure _) _ _).bind fun response => ?_
      split
      · exact fetchInventory_routes hrequest _ low I hI hdepth
      · exact writeEnvelope_obeys hI.elsewhere env _ _
      · exact Obeys.pure _

end Handlers

/-- The connection after a turn of the loop has looked at the shutdown flag and at the clock. -/
def PeerLink.looked (link : PeerLink F) : PeerLink F := { link with moments := link.moments + 2 }

variable {message : PeerMessage}

section Turn

variable {env : LinkEnv F} {handle : UInt64 → PeerMessage → LinkM F Unit} {id deadline fuel : Nat} {link : PeerLink F}

theorem moment_apply (link : PeerLink F) :
    (moment : LinkM F Nat) link = .ok link.moments { link with moments := link.moments + 1 } := rfl

theorem awaitResponse_pending (h : link.pendingResponses[id]? = some message) :
    awaitResponse env handle id deadline (fuel + 1) link =
      .ok message (link.collected id message) := by
  rw [awaitResponse, get_bind, h]
  rfl

def PeerLink.Waits (link : PeerLink F) (env : LinkEnv F) (deadline : Nat) : Prop :=
  env.shutdown link.moments = false ∧ env.now (link.moments + 1) < deadline

theorem awaitResponse_stopped (h : link.pendingResponses[id]? = none) (hstop : ¬link.Waits env deadline) :
    ∃ text moments, awaitResponse env handle id deadline (fuel + 1) link =
      .error (.failed text) { link with moments } := by
  rw [awaitResponse, get_bind, h]
  dsimp only [ensureRunning]
  rw [bind_assoc, bind_ok (moment_apply _)]
  cases hshutdown : env.shutdown link.moments with
  | true => exact ⟨_, _, rfl⟩
  | false =>
    rw [Bool.not_false, ensure_true, pure_bind, bind_ok (moment_apply _),
      decide_eq_false fun hearly => hstop ⟨hshutdown, hearly⟩, ensure_false]
    exact ⟨_, _, rfl⟩

theorem awaitResponse_turn (h : link.pendingResponses[id]? = none) (hwaits : link.Waits env deadline) :
    awaitResponse env handle id deadline (fuel + 1) link =
      match link.channel with
      | [] => .error (.failed "read failed: channel is empty and sending half is closed") link.looked
      | .timeout :: rest => awaitResponse env handle id deadline fuel (link.looked.received rest)
      | .envelope envelope :: rest =>
        if envelope.responseTo.toNat = id then
          .ok envelope.message ((link.looked.received rest).gave id envelope.message)
        else if envelope.responseTo ≠ 0 then
          awaitResponse env handle id deadline fuel
            ((link.looked.received rest).parked envelope.responseTo.toNat envelope.message)
        else
          (handle envelope.requestId envelope.message >>= fun _ => awaitResponse env handle id deadline fuel)
            (link.looked.received rest) := by
  rw [awaitResponse, get_bind, h]
  dsimp only [ensureRunning]
  rw [bind_assoc, bind_ok (moment_apply _), hwaits.1, Bool.not_false, ensure_true, pure_bind,
    bind_ok (moment_apply _), decide_eq_true hwaits.2, ensure_true, pure_bind, get_bind]
  obtain ⟨node, attached, requestIds, pendingResponses, budget, channel, moments, delivered, given, sent⟩ := link
  cases channel with
  | nil => rfl
  | cons receipt rest =>
    cases receipt with
    | timeout => rfl
    | envelope found =>
      dsimp only
      split
      · rfl
      · split
        · rfl
        · rfl

end Turn

/-- What the turns of a call keep until its response is there, with what the errors of the handler are. -/
structure TurnInvariant (handle : UInt64 → PeerMessage → LinkM F Unit) (E : LinkError → Prop) (id : Nat)
    (I : PeerLink F → Prop) : Prop where
  failed : ∀ text, E (.failed text)
  moments : ∀ {link : PeerLink F} moments, I link → I { link with moments }
  skipped : ∀ {link : PeerLink F} {rest}, I link → link.channel = .timeout :: rest → I (link.received rest)
  parked : ∀ {link : PeerLink F} {envelope rest}, I link → link.channel = .envelope envelope :: rest →
    envelope.responseTo ≠ 0 → envelope.responseTo.toNat ≠ id →
    I ((link.received rest).parked envelope.responseTo.toNat envelope.message)
  handled : ∀ {link : PeerLink F} {envelope rest}, I link → link.channel = .envelope envelope :: rest →
    envelope.responseTo = 0 →
    (I (state (handle envelope.requestId envelope.message (link.received rest))) ∧
      (state (handle envelope.requestId envelope.message (link.received rest))).channel.length ≤ rest.length) ∧
    ∀ error next, handle envelope.requestId envelope.message (link.received rest) = .error error next → E error

/-- How a call ends. -/
inductive Ended (I : PeerLink F → Prop) (E : LinkError → Prop) (id : Nat) :
    EStateM.Result LinkError (PeerLink F) PeerMessage → Prop
  | collected {link : PeerLink F} {message : PeerMessage} (kept : I link)
      (found : link.pendingResponses[id]? = some message) : Ended I E id (.ok message (link.collected id message))
  | received {link : PeerLink F} {envelope : NetworkEnvelope PeerMessage} {rest : List Receipt} (kept : I link)
      (head : link.channel = .envelope envelope :: rest) (own : envelope.responseTo.toNat = id) :
      Ended I E id (.ok envelope.message ((link.received rest).gave id envelope.message))
  | failed {error : LinkError} {next : PeerLink F} (kept : I next) (source : E error) :
      Ended I E id (.error error next)

variable {env : LinkEnv F} {depth : Nat}

theorem awaitResponse_ends {handle : UInt64 → PeerMessage → LinkM F Unit} {E : LinkError → Prop} {id : Nat}
    (hI : TurnInvariant handle E id I) (deadline : Nat) {fuel : Nat} (hlink : I link)
    (hfuel : link.channel.length < fuel) : Ended I E id (awaitResponse env handle id deadline fuel link) := by
  induction fuel generalizing link with
  | zero => exact absurd hfuel (Nat.not_lt_zero _)
  | succ fuel ih =>
    cases hpending : link.pendingResponses[id]? with
    | some message =>
      rw [awaitResponse_pending hpending]
      exact .collected hlink hpending
    | none =>
      by_cases hwaits : link.Waits env deadline
      · have hlooked : I link.looked := hI.moments _ hlink
        rw [awaitResponse_turn hpending hwaits]
        cases hchannel : link.channel with
        | nil => exact .failed hlooked (hI.failed _)
        | cons receipt rest =>
          have hshort : rest.length < fuel := by
            rw [hchannel, List.length_cons] at hfuel
            omega
          cases receipt with
          | timeout => exact ih (hI.skipped hlooked hchannel) hshort
          | envelope found =>
            dsimp only
            split
            next hown => exact .received hlooked hchannel hown
            next hother =>
            split
            next hresponse => exact ih (hI.parked hlooked hchannel hresponse hother) hshort
            next hzero =>
              obtain ⟨⟨hkept, hless⟩, herror⟩ := hI.handled hlooked hchannel (Decidable.not_not.mp hzero)
              cases hrun : handle found.requestId found.message (link.looked.received rest) with
              | ok _ next =>
                rw [hrun] at hkept hless
                rw [bind_ok hrun]
                exact ih hkept (Nat.lt_of_le_of_lt hless hshort)
              | error error next =>
                rw [hrun] at hkept
                rw [bind_error hrun]
                exact .failed hkept (herror error next hrun)
      · obtain ⟨text, moments, hstopped⟩ := @awaitResponse_stopped _ env handle _ _ fuel _ hpending hwaits
        rw [hstopped]
        exact .failed (hI.moments _ hlink) (hI.failed _)

/-- The outcome of a call: the invariant holds, an error is one of the source, and a message was delivered to
the call last. -/
def Settled (I : PeerLink F → Prop) (id : Nat) : EStateM.Result LinkError (PeerLink F) PeerMessage → Prop
  | .ok message next => I next ∧ ∃ before, I before ∧ next.delivered = before.delivered ++ [(id, message)]
  | .error error next => I next ∧ error.IsFailure

theorem Settled.obeys {id : Nat} {result : EStateM.Result LinkError (PeerLink F) PeerMessage}
    (h : Settled I id result) : I (state result) ∧ ∀ error next, result = .error error next → error.IsFailure := by
  cases result with
  | ok message next => exact ⟨h.1, fun error next heq => by cases heq⟩
  | error error next =>
    refine ⟨h.1, fun error' next' heq => ?_⟩
    cases heq
    exact h.2

theorem Ended.settled (hI : LinkInvariant low I) {id : Nat} (hid : low ≤ id)
    {result : EStateM.Result LinkError (PeerLink F) PeerMessage} (h : Ended I LinkError.IsFailure id result) :
    Settled I id result := by
  cases h with
  | collected kept found => exact ⟨hI.step (.collected hid found) kept, _, kept, rfl⟩
  | received kept head own =>
    subst own
    exact ⟨hI.step (.received head hid) kept, _, kept, rfl⟩
  | failed kept source => exact ⟨kept, source⟩

theorem LinkInvariant.turns {handle : UInt64 → PeerMessage → LinkM F Unit} (id : Nat)
    (hhandle : ∀ requestId message, Routes depth (handle requestId message)) (hI : LinkInvariant low I)
    (hdepth : ∀ link, I link → link.channel.length ≤ depth) : TurnInvariant handle LinkError.IsFailure id I where
  failed := failed_isFailure
  moments _ hlink := hI.elsewhere hlink rfl rfl rfl rfl
  skipped hlink hchannel := hI.step (.skipped hchannel rfl) hlink
  parked hlink hchannel _ _ := hI.step (.parked hchannel) hlink
  handled {link envelope rest} hlink hchannel hzero := by
    -- the handler makes calls, which find no more receipts than are left now
    have hle : link.channel.length ≤ depth := hdepth link hlink
    rw [hchannel, List.length_cons] at hle
    exact hhandle _ _ low _ (hI.bounded rest.length) (fun next hnext => Nat.lt_of_le_of_lt hnext.2 hle)
      (link.received rest) ⟨hI.step (.skipped hchannel (congrArg UInt64.toNat hzero)) hlink, Nat.le_refl _⟩

theorem openRequest_obeys (hI : LinkInvariant low I) (api : PeerApi)
    (env : LinkEnv F) (message : PeerMessage) : Obeys I LinkError.IsFailure (openRequest api env message) := by
  refine (ensureRunning_obeys hI.elsewhere env).bind fun _ => ?_
  refine (linkBudget_obeys hI.elsewhere env).bind fun _ => ?_
  refine (moment_obeys hI.elsewhere).bind fun _ => Obeys.get.bind fun _ => ?_
  refine Obeys.bind (Obeys.modify fun _ hlink => hI.step (.issued _) hlink) fun _ => ?_
  exact (writeEnvelope_obeys hI.elsewhere env _ _).bind fun _ => Obeys.pure _

theorem openRequest_eq {api : PeerApi} : openRequest api env message link =
    if env.shutdown link.moments then
      .error (.failed "node shutdown requested") { link with moments := link.moments + 1 }
    else
      match checkRequestBudget "peer request rate limit exceeded" env.windowClock link.budget with
      | .error text budget => .error (.failed text) { link with moments := link.moments + 1, budget }
      | .ok _ budget =>
        let envelope := ⟨api.params.networkMagic, .ofNat link.requestIds, 0, message⟩
        let opened := { link with moments := link.moments + 3, budget, requestIds := link.requestIds + 1 }
        match env.write (link.moments + 2) envelope with
        | .error text => .error (.failed ("send failed: " ++ text)) opened
        | .ok _ => .ok (link.requestIds, env.now (link.moments + 1) + persistentPeerTimeout)
            { opened with sent := link.sent ++ [envelope] } := by
  unfold openRequest ensureRunning writeEnvelope
  rw [bind_assoc, bind_ok (moment_apply _)]
  cases hshutdown : env.shutdown link.moments with
  | true => rfl
  | false =>
    rw [Bool.not_false, ensure_true, pure_bind, if_neg Bool.false_ne_true]
    cases hbudget : checkRequestBudget "peer request rate limit exceeded" env.windowClock link.budget with
    | error text budget => exact bind_error (by simp only [linkBudget, focus, hbudget])
    | ok _ budget =>
      have hcheck : ∀ moments, linkBudget env { link with moments } = .ok () { link with moments, budget } := by
        simp only [linkBudget, focus, hbudget, implies_true]
      rw [bind_ok (hcheck _), bind_ok (moment_apply _), get_bind, modify_bind, bind_assoc, bind_ok (moment_apply _)]
      dsimp only
      cases env.write (link.moments + 2) ⟨api.params.networkMagic, .ofNat link.requestIds, 0, message⟩ <;> rfl

theorem openRequest_ok {api : PeerApi} {id deadline : Nat}
    (h : openRequest api env message link = .ok (id, deadline) next) :
    id = link.requestIds ∧ ∃ moments budget sent,
      checkRequestBudget "peer request rate limit exceeded" env.windowClock link.budget = .ok () budget ∧
      sent.length = link.sent.length + 1 ∧
      next = { link with moments, budget, requestIds := link.requestIds + 1, sent } := by
  rw [openRequest_eq] at h
  split at h
  next => cases h
  next =>
    split at h
    next => cases h
    next budget hbudget =>
      dsimp only at h
      split at h
      next => cases h
      next =>
        cases h
        exact ⟨rfl, _, budget, _, hbudget, List.length_append, rfl⟩

theorem requestWithin_settled (paqus : Paqus F) (api : PeerApi) (env : LinkEnv F)
    (hroutes : ∀ message, Routes depth (requestWithin paqus api env depth message)) (hI : LinkInvariant low I)
    (hdepth : ∀ link, I link → link.channel.length ≤ depth) (message : PeerMessage) (hlink : I link) :
    Settled I link.requestIds (requestWithin paqus api env (depth + 1) message link) := by
  obtain ⟨hkept, herror⟩ := openRequest_obeys hI api env message link hlink
  cases hopen : openRequest api env message link with
  | error error next =>
    rw [hopen] at hkept
    rw [requestWithin, bind_error hopen]
    exact ⟨hkept, herror error next hopen⟩
  | ok call next =>
    obtain ⟨id, deadline⟩ := call
    obtain rfl := (openRequest_ok hopen).1
    rw [hopen] at hkept
    rw [requestWithin, bind_ok hopen]
    dsimp only
    rw [get_bind]
    have hturns := hI.turns link.requestIds (@handleUnsolicited_routes _ paqus api env _ _ hroutes) hdepth
    exact (awaitResponse_ends hturns deadline hkept (Nat.lt_succ_self _)).settled hI (hI.low_le hlink)

theorem requestWithin_routes (paqus : Paqus F) (api : PeerApi) (env : LinkEnv F) (depth : Nat)
    (message : PeerMessage) : Routes depth (requestWithin paqus api env depth message) := by
  induction depth generalizing message with
  | zero => exact fun low I hI hdepth link hlink => absurd (hdepth link hlink) (Nat.not_lt_zero _)
  | succ depth ih =>
    intro low I hI hdepth link hlink
    exact (requestWithin_settled paqus api env ih hI (fun link hlink => Nat.le_of_lt_succ (hdepth link hlink)) message
      hlink).obeys

end PaqusNetwork
