import PaqusNetwork.Network.Handler
import PaqusNetwork.Node.RequestQueue

namespace PaqusNetwork

open Effect Numeric

variable {F : Type} (paqus : Paqus F)

/-- The hash was in the fork graph when the node was looked at, or a block with it was given to
`apply_block`. -/
def Session.Knows (session : Session F) (hash : BlockHash) : Prop :=
  (∃ node ∈ session.states, paqus.contains node.forkChoice hash = true) ∨
    ∃ block ∈ session.given, paqus.blockHash block = .ok hash

instance Session.Knows.decidable (session : Session F) (hash : BlockHash) : Decidable (session.Knows paqus hash) :=
  inferInstanceAs (Decidable (_ ∨ _))

def Node.Settled (node : Node F) (hash : BlockHash) : Prop :=
  paqus.contains node.forkChoice hash = true ∨ hash ∈ node.missingParentRequests

instance Node.Settled.decidable (node : Node F) (hash : BlockHash) : Decidable (node.Settled paqus hash) :=
  inferInstanceAs (Decidable (_ ∨ _))

namespace Turn

def accepts (turn : Turn F) : Bool :=
  match turn.answer with
  | .ok (.block block) =>
    (outcome (applyBlock paqus block (afterCalls paqus turn.node turn.meanwhile))).isOk
  | _ => false

def ends (turn : Turn F) : Bool :=
  decide (turn.progress.fetched ≥ maxMissingParentFetchesPerPoll) || decide (turn.progress.missing > 0) ||
    !turn.accepts paqus

def answered (turn : Turn F) : Bool :=
  match turn.answer with
  | .ok (.block block) => decide (paqus.blockHash block = .ok turn.hash)
  | _ => false

/-- An accepted block is the requested one, and a turn that ends the batch leaves only hashes behind that are
known or queued. -/
def Kept (turn : Turn F) : Prop :=
  (turn.ends paqus = true → ∀ other ∈ turn.rest, turn.node.Settled paqus other) ∧
    (turn.ends paqus = false → turn.answered paqus = true ∨ turn.node.Settled paqus turn.hash)

instance Kept.decidable (turn : Turn F) : Decidable (turn.Kept paqus) := inferInstanceAs (Decidable ((_ → _) ∧ (_ → _)))

end Turn

/-- What happens to a session between two drains. -/
structure Session.Later (before after : Session F) : Prop where
  node : Retains before.node after.node
  states : before.states ⊆ after.states
  given : before.given ⊆ after.given
  turns : before.turns ⊆ after.turns
  taken : after.taken = before.taken
  meanwhile : after.meanwhile = before.meanwhile

namespace Session.Later

theorem refl (session : Session F) : session.Later session :=
  ⟨.refl _, fun _ h => h, fun _ h => h, fun _ h => h, rfl, rfl⟩

theorem trans {first second third : Session F} (h : first.Later second) (h' : second.Later third) :
    first.Later third where
  node := h.node.trans h'.node
  states _ hs := h'.states (h.states hs)
  given _ hg := h'.given (h.given hg)
  turns _ ht := h'.turns (h.turns ht)
  taken := h'.taken.trans h.taken
  meanwhile := h'.meanwhile.trans h.meanwhile

end Session.Later

/-- Every hash that was taken is still to come, or known, or queued; and it is marked as requested only when
it is queued. -/
structure Accounted (pending : List BlockHash) (session : Session F) : Prop where
  hashes : ∀ hash ∈ session.taken, hash ∈ pending ∨ session.Knows paqus hash ∨ hash ∈ session.node.missingParentRequests
  marked : ∀ hash ∈ session.taken, hash ∈ session.node.missingParentRequestSet →
    hash ∈ session.node.missingParentRequests

section Steps

variable {paqus} {session next : Session F} {pending : List BlockHash} {hash : BlockHash}

theorem Session.Knows.later (h : session.Knows paqus hash) (hlater : session.Later next) :
    next.Knows paqus hash := by
  rcases h with ⟨node, hnode, hknown⟩ | ⟨block, hblock, hhash⟩
  · exact .inl ⟨node, hlater.states hnode, hknown⟩
  · exact .inr ⟨block, hlater.given hblock, hhash⟩

theorem Accounted.later (h : Accounted paqus pending session) (hlater : session.Later next) :
    Accounted paqus pending next := by
  refine ⟨fun hash ht => ?_, fun hash ht hm => ?_⟩
  · rw [hlater.taken] at ht
    rcases h.hashes hash ht with hp | hk | hq
    · exact .inl hp
    · exact .inr (.inl (hk.later hlater))
    · exact .inr (.inr (hlater.node.queue hq))
  · rw [hlater.taken] at ht
    rcases hlater.node.marked hash hm with hold | hq
    · exact hlater.node.queue (h.marked hash ht hold)
    · exact hq

theorem Accounted.drop (h : Accounted paqus (hash :: pending) session)
    (hsettled : session.Knows paqus hash ∨ hash ∈ session.node.missingParentRequests) :
    Accounted paqus pending session := by
  refine ⟨fun other ho => ?_, h.marked⟩
  rcases h.hashes other ho with hp | hrest
  · rcases List.mem_cons.mp hp with rfl | hp
    · exact .inr hsettled
    · exact .inl hp
  · exact .inr hrest

variable {node : Node F}

theorem Node.Settled.later (h : node.Settled paqus hash) (hstate : node ∈ session.states)
    (hnode : Retains node session.node) : session.Knows paqus hash ∨ hash ∈ session.node.missingParentRequests := by
  rcases h with hknown | hqueued
  · exact .inl (.inl ⟨node, hstate, hknown⟩)
  · exact .inr (hnode.queue hqueued)

def Session.ran (session : Session F) (node : Node F) : Session F :=
  { session with states := session.states ++ [session.node], node }

theorem Session.Later.ran (h : Retains session.node node) : session.Later (session.ran node) :=
  ⟨h, fun _ hs => List.mem_append_left _ hs, fun _ hg => hg, fun _ ht => ht, rfl, rfl⟩

variable {α : Type} {text : NodeError → String} {program : NodeM F α}

theorem locked_ok {value : α} (h : program session.node = .ok value node) :
    locked text program session = .ok value (session.ran node) := by
  unfold locked
  rw [modify_bind]
  unfold focus
  rw [h]
  rfl

theorem locked_error {error : NodeError} (h : program session.node = .error error node) :
    locked text program session = .error (text error) (session.ran node) := by
  unfold locked
  rw [modify_bind]
  unfold focus
  rw [h]
  rfl

theorem state_locked (text : NodeError → String) (program : NodeM F α) (session : Session F) :
    state (locked text program session) = session.ran (state (program session.node)) := by
  unfold locked
  rw [modify_bind, state_focus]
  rfl

theorem retry_later (hash : BlockHash) (session : Session F) : session.Later (state (retry paqus hash session)) := by
  unfold retry
  rw [state_locked]
  exact .ran (retryMissingParentRequest_retains hash session.node)

theorem retry_settles
    (hmarked : hash ∈ session.node.missingParentRequestSet → hash ∈ session.node.missingParentRequests) :
    (state (retry paqus hash session)).Knows paqus hash ∨
      hash ∈ (state (retry paqus hash session)).node.missingParentRequests := by
  unfold retry
  rw [state_locked]
  rcases @retryMissingParentRequest_queues F paqus hash session.node hmarked with hknown | hqueued
  · exact .inl (.inl ⟨session.node, List.mem_append_right _ List.mem_cons_self, hknown⟩)
  · exact .inr hqueued

theorem requestPeer_apply (message : NetworkMessage) (session : Session F) :
    requestPeer paqus message session =
      liftExcept id (session.responses session.requests message) { session with
        node := afterCalls paqus session.node (session.meanwhile session.requests)
        requests := session.requests + 1 } := rfl

theorem requestBlockByHash_spec (progress : Progress) (hash : BlockHash) (rest : List BlockHash)
    (hcalls : .drainMissingParents ∉ session.meanwhile session.requests) :
    session.Later (state (requestBlockByHash paqus hash session)) ∧
      ((session.turn progress hash rest).accepts paqus = true ↔
        outcome (requestBlockByHash paqus hash session) = .ok true) ∧
      ((session.turn progress hash rest).answered paqus = true →
        (state (requestBlockByHash paqus hash session)).Knows paqus hash) := by
  let asked : Session F := { session with
    node := afterCalls paqus session.node (session.meanwhile session.requests)
    requests := session.requests + 1 }
  have hasked : session.Later asked :=
    ⟨afterCalls_retains hcalls session.node, fun _ h => h, fun _ h => h, fun _ h => h, rfl, rfl⟩
  have hpeer := @requestPeer_apply F paqus (.getBlockByHash hash) session
  unfold requestBlockByHash Session.turn Turn.accepts Turn.answered
  cases hanswer : session.responses session.requests (.getBlockByHash hash) with
  | error text =>
    rw [hanswer] at hpeer
    rw [bind_error hpeer]
    exact ⟨hasked, by simp, by simp⟩
  | ok message =>
    rw [hanswer] at hpeer
    rw [bind_ok hpeer]
    cases message with
    | block block =>
      let offered : Session F := { asked with given := asked.given ++ [block] }
      have hoffered : session.Later offered := hasked.trans
        ⟨.refl _, fun _ h => h, fun _ h => List.mem_append_left _ h, fun _ h => h, rfl, rfl⟩
      have hgiven : block ∈ offered.given := List.mem_append_right _ List.mem_cons_self
      dsimp only
      rw [get_bind, modify_bind, state_bind_still (fun _ _ => rfl), state_locked]
      refine ⟨hoffered.trans (.ran (applyBlock_retains block offered.node)), ?_,
        fun hhash => .inr ⟨block, hgiven, of_decide_eq_true hhash⟩⟩
      cases happly : applyBlock paqus block offered.node with
      | ok value node =>
        rw [bind_ok (locked_ok happly)]
        simp [Except.isOk, Except.toBool]
      | error error node =>
        rw [bind_error (locked_error happly)]
        simp [Except.isOk, Except.toBool]
    | reject reason message => exact ⟨hasked, by simp, by simp⟩
    | _ => exact ⟨hasked, by simp, by simp⟩

theorem fetchBatch_asks {rest : List BlockHash} {progress : Progress}
    (hlimit : ¬progress.fetched ≥ maxMissingParentFetchesPerPoll) (session : Session F) :
    fetchBatch paqus (hash :: rest) progress session =
      let result := requestBlockByHash paqus hash (session.recorded (session.turn progress hash rest))
      match outcome result with
      | .ok true =>
        if progress.asked.missing > 0 then .ok progress.asked (state (retry paqus hash (state result)))
        else fetchBatch paqus rest progress.asked (state result)
      | .ok false =>
        .ok { progress.asked with missing := saturatingAdd progress.asked.missing 1 }
          (state (retry paqus hash (state result)))
      | .error error => .error error (state (retry paqus hash (state result))) := by
  rw [fetchBatch, modify_bind, if_neg hlimit, bind_ok (attempt_apply _ _)]
  dsimp only
  cases outcome (requestBlockByHash paqus hash (session.recorded (session.turn progress hash rest))) with
  | error error => rfl
  | ok found =>
    cases found with
    | false => rfl
    | true =>
      dsimp only
      split
      · rfl
      · rfl

theorem Session.Later.recorded (session : Session F) (turn : Turn F) : session.Later (session.recorded turn) :=
  ⟨.refl _, fun _ h => List.mem_append_left _ h, fun _ h => h, fun _ h => List.mem_append_left _ h, rfl, rfl⟩

theorem fetchBatch_spec {batch : List BlockHash} {progress : Progress}
    (hcalls : ∀ number, .drainMissingParents ∉ session.meanwhile number) :
    session.Later (state (fetchBatch paqus batch progress session)) ∧
      ((∀ turn ∈ (state (fetchBatch paqus batch progress session)).turns, turn.Kept paqus) →
        Accounted paqus batch session → batch ⊆ session.taken →
        Accounted paqus [] (state (fetchBatch paqus batch progress session))) := by
  induction batch generalizing session progress with
  | nil => exact ⟨.refl session, fun _ h _ => h⟩
  | cons hash rest ih =>
    let turn := session.turn progress hash rest
    have hrecorded := Session.Later.recorded session turn
    have hturn : turn ∈ (session.recorded turn).turns := List.mem_append_right _ List.mem_cons_self
    have hstate : turn.node ∈ (session.recorded turn).states := List.mem_append_right _ List.mem_cons_self
    -- every way out of the batch retries the hash and stops
    have hfinish : ∀ {asked : Session F}, (session.recorded turn).Later asked → turn.ends paqus = true →
        session.Later (state (retry paqus hash asked)) ∧
          ((∀ turn ∈ (state (retry paqus hash asked)).turns, turn.Kept paqus) →
            Accounted paqus (hash :: rest) session → hash :: rest ⊆ session.taken →
            Accounted paqus [] (state (retry paqus hash asked))) := by
      intro asked hasked hends
      have hretry : asked.Later (state (retry paqus hash asked)) := retry_later hash asked
      refine ⟨(hrecorded.trans hasked).trans hretry, fun hkept haccounted htaken => ?_⟩
      have hbefore := haccounted.later (hrecorded.trans hasked)
      have hmine : hash ∈ asked.taken := (hrecorded.trans hasked).taken ▸ htaken List.mem_cons_self
      have hrest := (hbefore.later hretry).drop (retry_settles (hbefore.marked hash hmine))
      refine ⟨fun other ho => .inr ?_, hrest.marked⟩
      rcases hrest.hashes other ho with hpending | hsettled
      · exact ((hkept turn (hretry.turns (hasked.turns hturn))).1 hends other hpending).later
          (hretry.states (hasked.states hstate)) (hasked.node.trans hretry.node)
      · exact hsettled
    by_cases hlimit : progress.fetched ≥ maxMissingParentFetchesPerPoll
    · have hends : turn.ends paqus = true := by simp [Turn.ends, turn, Session.turn, hlimit]
      unfold fetchBatch
      rw [modify_bind, if_pos hlimit]
      exact hfinish (.refl _) hends
    · obtain ⟨hasked, haccepts, hanswered⟩ := @requestBlockByHash_spec F paqus (session.recorded turn) progress
        hash rest (hcalls _)
      have hrefused : outcome (requestBlockByHash paqus hash (session.recorded turn)) ≠ .ok true →
          turn.ends paqus = true := by
        intro hnot
        have haccept : turn.accepts paqus = false := Bool.eq_false_iff.mpr fun h => hnot (haccepts.mp h)
        simp [Turn.ends, haccept]
      rw [fetchBatch_asks hlimit]
      dsimp only
      cases houtcome : outcome (requestBlockByHash paqus hash (session.recorded turn)) with
      | error error => exact hfinish hasked (hrefused (by rw [houtcome]; simp))
      | ok found =>
        cases found with
        | false => exact hfinish hasked (hrefused (by rw [houtcome]; simp))
        | true =>
          dsimp only
          by_cases hmissing : progress.asked.missing > 0
          · have hends : turn.ends paqus = true := by
              have hmissing' : progress.missing > 0 := hmissing
              simp [Turn.ends, turn, Session.turn, hmissing']
            rw [if_pos hmissing]
            exact hfinish hasked hends
          · have haccept : turn.accepts paqus = true := haccepts.mpr houtcome
            have hends : turn.ends paqus = false := by
              simp only [Turn.ends, haccept, Bool.not_true, Bool.or_false, Bool.or_eq_false_iff,
                decide_eq_false_iff_not]
              exact ⟨hlimit, hmissing⟩
            rw [if_neg hmissing]
            have hfetched := hrecorded.trans hasked
            obtain ⟨hlater, hrest⟩ := @ih (state (requestBlockByHash paqus hash (session.recorded turn)))
              progress.asked (fun number => by rw [hfetched.meanwhile]; exact hcalls number)
            refine ⟨hfetched.trans hlater, fun hkept haccounted htaken => hrest hkept ?_ ?_⟩
            · refine (haccounted.later hfetched).drop ?_
              rcases (hkept turn (hlater.turns (hasked.turns hturn))).2 hends with hgot | hsettled
              · exact .inl (hanswered hgot)
              · exact hsettled.later (hasked.states hstate) hasked.node
            · rw [hfetched.taken]
              exact fun other ho => htaken (List.mem_cons_of_mem _ ho)

def Session.drained (session : Session F) (next : Node F) (hashes : List BlockHash) : Session F :=
  { session.ran next with taken := session.taken ++ hashes }

theorem drain_accounted (h : Accounted paqus [] session) {hashes : List BlockHash} {next : Node F}
    (hqueue : ∀ hash ∈ session.node.missingParentRequests, hash ∈ hashes ∨ hash ∈ next.missingParentRequests)
    (hdrained : ∀ hash ∈ hashes, hash ∉ next.missingParentRequestSet)
    (hmarks : ∀ hash ∈ next.missingParentRequestSet, hash ∈ session.node.missingParentRequestSet) :
    Accounted paqus hashes (session.drained next hashes) := by
  refine ⟨fun hash ht => ?_, fun hash ht hm => ?_⟩
  · rcases List.mem_append.mp ht with hold | hnew
    · rcases h.hashes hash hold with hp | hknown | hqueued
      · cases hp
      · refine .inr (.inl ?_)
        rcases hknown with ⟨node, hnode, hknown⟩ | hgiven
        · exact .inl ⟨node, List.mem_append_left _ hnode, hknown⟩
        · exact .inr hgiven
      · rcases hqueue hash hqueued with hd | hq
        · exact .inl hd
        · exact .inr (.inr hq)
    · exact .inl hnew
  · have hnot : hash ∉ hashes := fun hd => hdrained hash hd hm
    rcases List.mem_append.mp ht with hold | hnew
    · rcases hqueue hash (h.marked hash hold (hmarks hash hm)) with hd | hq
      · exact absurd hd hnot
      · exact hq
    · exact absurd hnew hnot

theorem fetchBatches_spec {rounds : Nat} {progress : Progress}
    (hcalls : ∀ number, .drainMissingParents ∉ session.meanwhile number) :
    session.turns ⊆ (state (fetchBatches paqus rounds progress session)).turns ∧
      ((∀ turn ∈ (state (fetchBatches paqus rounds progress session)).turns, turn.Kept paqus) →
        Accounted paqus [] session → Accounted paqus [] (state (fetchBatches paqus rounds progress session))) := by
  induction rounds generalizing session progress with
  | zero => exact ⟨fun _ h => h, fun _ h => h⟩
  | succ rounds ih =>
    by_cases hroom : progress.fetched < maxMissingParentFetchesPerPoll
    · obtain ⟨hashes, next, hdrain, hqueue, hdrained, hmarks⟩ := drainMissingParentRequests_spec session.node
      have hround : fetchBatches paqus (rounds + 1) progress session = if hashes.isEmpty then
          .ok progress (session.drained next hashes)
          else (fetchBatch paqus hashes progress >>= fetchBatches paqus rounds) (session.drained next hashes) := by
        unfold fetchBatches
        rw [if_pos hroom, bind_ok (locked_ok hdrain), modify_bind]
        split <;> rfl
      rw [hround]
      split
      · rename_i hempty
        refine ⟨fun _ h => h, fun _ h => ?_⟩
        have haccounted := drain_accounted h hqueue hdrained hmarks
        rw [List.isEmpty_iff.mp hempty] at haccounted ⊢
        exact haccounted
      · obtain ⟨hlater, hbatch⟩ := @fetchBatch_spec F paqus (session.drained next hashes) hashes progress hcalls
        have hstart : Accounted paqus [] session → Accounted paqus hashes (session.drained next hashes) :=
          fun h => drain_accounted h hqueue hdrained hmarks
        have htaken : hashes ⊆ (session.drained next hashes).taken := fun _ ho => List.mem_append_right _ ho
        cases hresult : fetchBatch paqus hashes progress (session.drained next hashes) with
        | error error failed =>
          rw [bind_error hresult]
          rw [hresult, state_error] at hlater hbatch
          exact ⟨hlater.turns, fun hkept h => hbatch hkept (hstart h) htaken⟩
        | ok fetched after =>
          rw [bind_ok hresult]
          rw [hresult, state_ok] at hlater hbatch
          obtain ⟨hturns, hrest⟩ := @ih after fetched (fun number => by rw [hlater.meanwhile]; exact hcalls number)
          refine ⟨fun turn ht => hturns (hlater.turns ht), fun hkept h => hrest hkept ?_⟩
          exact hbatch (fun turn ht => hkept turn (hturns ht)) (hstart h) htaken
    · unfold fetchBatches
      rw [if_neg hroom]
      exact ⟨fun _ h => h, fun _ h => h⟩

end Steps

/-- In every poll whose turns are all kept, each hash that was taken out of the node is known or queued when
the poll returns. -/
theorem requestMissingParentBlocks_retains (node : Node F) (address : String)
    (responses : Nat → NetworkMessage → Except String NetworkMessage) (meanwhile : Nat → List NodeCall)
    (hcalls : ∀ number, .drainMissingParents ∉ meanwhile number)
    (hkept : ∀ turn ∈ (state (requestMissingParentBlocks paqus
      (Session.start node address responses meanwhile))).turns, turn.Kept paqus) :
    ∀ hash ∈ (state (requestMissingParentBlocks paqus (Session.start node address responses meanwhile))).taken,
      (state (requestMissingParentBlocks paqus (Session.start node address responses meanwhile))).Knows paqus hash ∨
      hash ∈ (state (requestMissingParentBlocks paqus
        (Session.start node address responses meanwhile))).node.missingParentRequests := by
  have hstate : state (requestMissingParentBlocks paqus (Session.start node address responses meanwhile)) =
      state (fetchBatches paqus maxMissingParentFetchesPerPoll ⟨false, 0, 0⟩
        (Session.start node address responses meanwhile)) := by
    exact state_bind_still (fun _ _ => rfl) _
  rw [hstate] at hkept ⊢
  obtain ⟨-, hspec⟩ := @fetchBatches_spec F paqus (Session.start node address responses meanwhile)
    maxMissingParentFetchesPerPoll ⟨false, 0, 0⟩ hcalls
  have hend := hspec hkept ⟨fun _ h => (List.not_mem_nil h).elim, fun _ h => (List.not_mem_nil h).elim⟩
  intro hash hmem
  rcases hend.hashes hash hmem with hnone | hsettled
  · cases hnone
  · exact hsettled

namespace Reference

def leftParent : Tip := Tip.genesis.next 111 1 []

def rightParent : Tip := Tip.genesis.next 121 1 []

def waitingRun : Except NodeError (Node ForkTree) :=
  sampleRun 2 [.applyBlock (leftParent.next 112 1 []).block, .applyBlock (rightParent.next 122 1 []).block]

def pollOf (answers : List NetworkMessage) (node : Node ForkTree) : Session ForkTree :=
  state (requestMissingParentBlocks (protocol 2) (Session.start node "peer"
    (fun number _ => .ok (answers.getD number (.reject .invalidMessage "block not found"))) fun _ => []))

theorem requestMissingParentBlocks_retains_served :
    ∃ node, waitingRun = .ok node ∧ (pollOf [.block leftParent.block] node).taken = [111, 121] ∧
      ∀ hash ∈ (pollOf [.block leftParent.block] node).taken,
        (pollOf [.block leftParent.block] node).Knows (protocol 2) hash ∨
          hash ∈ (pollOf [.block leftParent.block] node).node.missingParentRequests := by
  obtain ⟨node, hnode⟩ : ∃ node, waitingRun = .ok node := exists_ok (by decide +kernel)
  exact ⟨node, hnode, of_ok hnode (by decide +kernel), requestMissingParentBlocks_retains (protocol 2) node "peer" _ _
    (fun _ h => nomatch h) (of_ok hnode (by decide +kernel))⟩

/-- The peer rejects the first request of two: the second one is gone, unknown and no longer queued. -/
theorem requestMissingParentBlocks_loses_request :
    ∃ node, Reachable (protocol 2) node ∧ 121 ∈ node.missingParentRequests ∧
      121 ∈ (pollOf [] node).taken ∧ ¬(pollOf [] node).Knows (protocol 2) 121 ∧
      121 ∉ (pollOf [] node).node.missingParentRequests := by
  obtain ⟨node, hnode⟩ : ∃ node, waitingRun = .ok node := exists_ok (by decide +kernel)
  exact ⟨node, sampleRun_reachable hnode, of_ok hnode (by decide +kernel)⟩

end Reference

end PaqusNetwork
