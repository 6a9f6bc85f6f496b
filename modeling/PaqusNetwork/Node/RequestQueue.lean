import PaqusNetwork.DueQueue
import PaqusNetwork.Reference.Sample

namespace PaqusNetwork

open Effect Numeric DueQueue

variable {F : Type} {paqus : Paqus F} {hash : BlockHash}

/-- Every queued request is still queued, and what is newly marked as requested is queued. -/
structure Retains (before after : Node F) : Prop where
  queue : before.missingParentRequests ⊆ after.missingParentRequests
  marked : ∀ hash : BlockHash, hash ∈ after.missingParentRequestSet →
    hash ∈ before.missingParentRequestSet ∨ hash ∈ after.missingParentRequests

namespace Retains

theorem refl (node : Node F) : Retains node node := ⟨fun _ h => h, fun _ h => .inl h⟩

theorem trans {first second third : Node F} (h : Retains first second) (h' : Retains second third) :
    Retains first third := by
  refine ⟨fun hash hq => h'.queue (h.queue hq), fun hash hm => ?_⟩
  rcases h'.marked hash hm with hsecond | hqueued
  · rcases h.marked hash hsecond with hfirst | hqueued
    · exact .inl hfirst
    · exact .inr (h'.queue hqueued)
  · exact .inr hqueued

theorem congr {before node next : Node F} (h : Retains before node)
    (hqueue : next.missingParentRequests = node.missingParentRequests)
    (hmarks : next.missingParentRequestSet = node.missingParentRequestSet) : Retains before next := by
  refine ⟨?_, ?_⟩
  · rw [hqueue]
    exact h.queue
  · rw [hqueue, hmarks]
    exact h.marked

theorem clockReads (node : Node F) : Retains node { node with clockReads := node.clockReads + 1 } :=
  (refl node).congr rfl rfl

end Retains

variable (before : Node F)

theorem aside_retains : Aside paqus (Retains before) where
  storage _ h := h.congr rfl rfl
  mempool _ h := h.congr rfl rfl
  clockReads _ h := h.congr rfl rfl
  main _ _ _ _ _ _ h := h.congr rfl rfl

theorem queueMissingParentRequestAt_retains (hash : BlockHash) (retryAt : Nat) (node : Node F) :
    Retains node (state (queueMissingParentRequestAt paqus hash retryAt node)) := by
  unfold queueMissingParentRequestAt
  rw [modify_apply, state_ok]
  split
  · exact .refl node
  · refine ⟨fun other ho => ?_, fun other ho => ?_⟩
    · dsimp only
      split
      · exact ho
      · exact List.mem_append_left _ ho
    · have hcases : other = hash ∨ other ∈ node.missingParentRequestSet := by
        rcases Std.ExtTreeMap.mem_insert.mp ho with heq | hold
        · exact .inl (compare_eq_iff_eq.mp heq).symm
        · exact .inr hold
      rcases hcases with rfl | hold
      · by_cases hmarked : other ∈ node.missingParentRequestSet
        · exact .inl hmarked
        · right
          have hnot : node.missingParentRequestSet.contains other = false := by
            rw [← Bool.not_eq_true, Std.ExtTreeMap.contains_iff_mem]
            exact hmarked
          simp [hnot]
      · exact .inl hold

theorem queueMissingParentRequestAt_queues {retryAt : Nat} {node : Node F}
    (hmarked : hash ∈ node.missingParentRequestSet → hash ∈ node.missingParentRequests) :
    paqus.contains node.forkChoice hash = true ∨
      hash ∈ (state (queueMissingParentRequestAt paqus hash retryAt node)).missingParentRequests := by
  unfold queueMissingParentRequestAt
  rw [modify_apply, state_ok]
  split
  · rename_i hknown
    exact .inl hknown
  · right
    dsimp only
    split
    · rename_i hcontains
      exact hmarked (Std.ExtTreeMap.contains_iff_mem.mp hcontains)
    · exact List.mem_append_right _ List.mem_cons_self

theorem retryMissingParentRequest_retains (hash : BlockHash) (node : Node F) :
    Retains node (state (retryMissingParentRequest paqus hash node)) := by
  unfold retryMissingParentRequest
  rw [currentUnixTimestamp_bind]
  exact (Retains.clockReads node).trans (queueMissingParentRequestAt_retains hash _ _)

theorem retryMissingParentRequest_queues {node : Node F}
    (hmarked : hash ∈ node.missingParentRequestSet → hash ∈ node.missingParentRequests) :
    paqus.contains node.forkChoice hash = true ∨
      hash ∈ (state (retryMissingParentRequest paqus hash node)).missingParentRequests := by
  unfold retryMissingParentRequest
  rw [currentUnixTimestamp_bind]
  exact @queueMissingParentRequestAt_queues F paqus hash _ { node with clockReads := node.clockReads + 1 } hmarked

theorem sheltering_retains : Sheltering paqus (Retains before) where
  clockReads _ h := h.congr rfl rfl
  removed _ h := h.congr rfl rfl
  queued hash retryAt node h := h.trans (queueMissingParentRequestAt_retains hash retryAt node)
  stored _ _ h := h.congr rfl rfl

theorem handled_retains : Handled paqus (Retains before) where
  clockReads _ h := h.congr rfl rfl
  connect block node h := by
    have hpool := applyKnownParentBlock_pool paqus block node
    exact h.congr (congrArg Node.Pool.missingParentRequests hpool) (congrArg Node.Pool.missingParentRequestSet hpool)
  prune := (@sheltering_retains F paqus before).pruneExpiredOrphans_keeps
  cache := (sheltering_retains before).cacheOrphanBlock_keeps
  taken _ h := h.congr rfl rfl
  indexed _ h := h.congr rfl rfl
  counted _ h := h.congr rfl rfl

theorem applyBlock_retains (block : Block) (node : Node F) : Retains node (state (applyBlock paqus block node)) :=
  (handled_retains node).applyBlock_keeps block node (.refl node)

theorem NodeCall.retains {call : NodeCall} (hcall : call ≠ .drainMissingParents) (node : Node F) :
    Retains node (call.after paqus node) := by
  have haside : Aside paqus (Retains node) := aside_retains node
  have hnode := Retains.refl node
  cases call with
  | applyBlock block => exact applyBlock_retains block node
  | submit transaction => exact haside.submitProtocolTransaction_keeps transaction node hnode
  | evictByPolicy now => exact haside.onMempool_keeps (fun _ _ => .evicted now) node hnode
  | removeConfirmed block => exact haside.onMempool_keeps (fun _ _ => .confirmed block) node hnode
  | retryRollbackIssue id => exact haside.retryRollbackIssue_keeps id node hnode
  | drainMissingParents => exact absurd rfl hcall
  | retryMissingParent hash => exact retryMissingParentRequest_retains hash node
  | stageCompact hash compact => exact hnode.congr rfl rfl
  | takeCompact hash => exact hnode.congr rfl rfl

theorem afterCalls_retains {calls : List NodeCall} (h : .drainMissingParents ∉ calls) (node : Node F) :
    Retains node (afterCalls paqus node calls) := by
  induction calls generalizing node with
  | nil => exact .refl node
  | cons call rest ih =>
    have hcall : call ≠ .drainMissingParents := fun heq => h (heq ▸ List.mem_cons_self)
    have hrest : .drainMissingParents ∉ rest := fun hmem => h (List.mem_cons_of_mem _ hmem)
    exact (NodeCall.retains hcall node).trans (ih hrest _)

theorem drainMissingParentRequests_spec (node : Node F) :
    ∃ hashes next, (drainMissingParentRequests : NodeM F (List BlockHash)) node = .ok hashes next ∧
      (∀ hash ∈ node.missingParentRequests, hash ∈ hashes ∨ hash ∈ next.missingParentRequests) ∧
      (∀ hash ∈ hashes, hash ∉ next.missingParentRequestSet) ∧
      ∀ hash ∈ next.missingParentRequestSet, hash ∈ node.missingParentRequestSet := by
  refine ⟨_, _, rfl, fun hash hq => ?_, fun hash hd => ?_, fun hash hm => ?_⟩
  · by_cases hdue : (node.missingParentRetryAt[hash]?).getD 0 ≤ node.clock node.clockReads
    · exact .inl (List.mem_filter.mpr ⟨hq, decide_eq_true hdue⟩)
    · exact .inr (List.mem_filter.mpr ⟨hq, by simpa using hdue⟩)
  · intro hm
    exact (OrderedMap.mem_foldl_erase.mp hm).1 hd
  · exact (OrderedMap.mem_foldl_erase.mp hm).2

structure DrainState where
  requestSet : BTreeMap BlockHash Unit
  retryAt : BTreeMap BlockHash Nat
  ready : List BlockHash
  pending : List BlockHash

def drainLoop (now : Nat) : List BlockHash → DrainState → DrainState
  | [], drain => drain
  | hash :: queue, drain =>
    if (drain.retryAt[hash]?).getD 0 ≤ now then
      drainLoop now queue ⟨drain.requestSet.erase hash, drain.retryAt.erase hash, drain.ready ++ [hash], drain.pending⟩
    else drainLoop now queue { drain with pending := drain.pending ++ [hash] }

/-- The calls on the queue; the first two read the clock. -/
inductive RequestCall
  | queue (hash : BlockHash)
  | retry (hash : BlockHash)
  | drain (now : Nat)

variable (paqus : Paqus F)

def RequestCall.after (node : Node F) : RequestCall → Node F
  | queue hash => state (queueMissingParentRequest paqus hash node)
  | retry hash => state (retryMissingParentRequest paqus hash node)
  | drain now => state (drainMissingParentRequestsAt now node)

/-- The requests that wait after a call, with the times that were asked for them. A block that the graph
has is not requested. -/
def RequestCall.waiting (node : Node F) (waiting : List (BlockHash × List Nat)) :
    RequestCall → List (BlockHash × List Nat)
  | queue hash =>
    if paqus.contains node.forkChoice hash then waiting
    else request hash (node.clock node.clockReads) waiting
  | retry hash =>
    if paqus.contains node.forkChoice hash then waiting
    else request hash (saturatingAdd (node.clock node.clockReads) missingParentRetrySecs) waiting
  | drain now => waiting.filter fun entry => !due now entry

/-- A run of calls on the queue, with what waits. -/
inductive RequestRun (start : Node F) : Node F → List (BlockHash × List Nat) → Prop
  | start : RequestRun start start []
  | step {node : Node F} {waiting : List (BlockHash × List Nat)} (call : RequestCall)
      (before : RequestRun start node waiting) :
      RequestRun start (call.after paqus node) (call.waiting paqus node waiting)

/-- The containers hold the waiting requests, each with the earliest of its times. -/
structure Node.Queues (node : Node F) (waiting : List (BlockHash × List Nat)) : Prop where
  order : node.missingParentRequests = waiting.map Prod.fst
  once : (waiting.map Prod.fst).Nodup
  marked : ∀ hash : BlockHash, hash ∈ node.missingParentRequestSet ↔ hash ∈ waiting.map Prod.fst
  keys : ∀ hash : BlockHash, hash ∈ node.missingParentRetryAt ↔ hash ∈ waiting.map Prod.fst
  earliest : ∀ {hash : BlockHash} {times : List Nat}, (hash, times) ∈ waiting →
    ∃ time, times.min? = some time ∧ node.missingParentRetryAt[hash]? = some time

variable {paqus} {node : Node F} {waiting : List (BlockHash × List Nat)}

variable (now : Nat)

namespace Node.Queues

theorem empty (hqueue : node.missingParentRequests = []) (hset : node.missingParentRequestSet = ∅)
    (htimes : node.missingParentRetryAt = ∅) : node.Queues [] where
  order := hqueue
  once := List.nodup_nil
  marked hash := by simp [hset]
  keys hash := by simp [htimes]
  earliest h := by cases h

variable (h : node.Queues waiting)

include h

theorem clockReads (clockReads : Nat) : Node.Queues { node with clockReads } waiting :=
  ⟨h.order, h.once, h.marked, h.keys, h.earliest⟩

theorem requested (hunknown : paqus.contains node.forkChoice hash = false) (retryAt : Nat) :
    (state (queueMissingParentRequestAt paqus hash retryAt node)).Queues (request hash retryAt waiting) := by
  unfold queueMissingParentRequestAt
  rw [modify_apply, state_ok, if_neg (by simp [hunknown])]
  have hcontains : node.missingParentRequestSet.contains hash = decide (hash ∈ waiting.map Prod.fst) := by
    rw [Bool.eq_iff_iff, Std.ExtTreeMap.contains_iff_mem, decide_eq_true_eq]
    exact h.marked hash
  have hitems : ∀ other, other ∈ (request hash retryAt waiting).map Prod.fst ↔
      hash = other ∨ other ∈ waiting.map Prod.fst := by
    intro other
    rw [items_request]
    split
    next hmem =>
      constructor
      · exact .inr
      · rintro (rfl | hother)
        · exact hmem
        · exact hother
    next => rw [List.mem_append, List.mem_singleton, or_comm, eq_comm]
  refine ⟨?_, ?_, fun other => ?_, fun other => ?_, fun {other times} hmem => ?_⟩
  · dsimp only
    rw [items_request, hcontains, h.order]
    by_cases hmem : hash ∈ waiting.map Prod.fst
    · rw [if_pos hmem, if_pos (decide_eq_true hmem)]
    · rw [if_neg hmem, if_neg (by simpa using hmem)]
  · rw [items_request]
    split
    next => exact h.once
    next hnew => exact List.Nodup.append h.once (List.nodup_singleton hash) (by simpa using hnew)
  · rw [hitems, Std.ExtTreeMap.mem_insert, h.marked, compare_eq_iff_eq]
  · rw [hitems, Std.ExtTreeMap.mem_insert, h.keys, compare_eq_iff_eq]
  · rw [Std.ExtTreeMap.getElem?_insert]
    rcases mem_request h.once hmem with ⟨hne, hold⟩ | ⟨old, hold, heq⟩ | ⟨hnew, heq⟩
    · rw [if_neg fun heq => hne (compare_eq_iff_eq.mp heq).symm]
      exact h.earliest hold
    · cases heq
      obtain ⟨time, hmin, hfound⟩ := h.earliest hold
      rw [if_pos (compare_eq_iff_eq.mpr rfl), hfound]
      exact ⟨min time retryAt, min?_append_singleton hmin, rfl⟩
    · cases heq
      have hnone : node.missingParentRetryAt[hash]? = none := by
        rw [← Option.not_isSome_iff_eq_none, Std.ExtTreeMap.isSome_getElem?_iff_mem, h.keys]
        exact hnew
      rw [if_pos (compare_eq_iff_eq.mpr rfl), hnone]
      exact ⟨retryAt, rfl, rfl⟩

theorem isDue : ∀ entry ∈ waiting, decide ((node.missingParentRetryAt[entry.1]?).getD 0 ≤ now) = due now entry := by
  rintro ⟨hash, times⟩ hmem
  obtain ⟨time, hmin, hfound⟩ := h.earliest hmem
  rw [due_iff hmin, hfound]
  rfl

theorem drained :
    ∃ next, drainMissingParentRequestsAt now node = .ok ((waiting.filter (due now)).map Prod.fst) next ∧
      next.Queues (waiting.filter fun entry => !due now entry) := by
  obtain ⟨hready, hpending⟩ := @map_filter_due _ now waiting
    (fun hash => decide ((node.missingParentRetryAt[hash]?).getD 0 ≤ now)) (h.isDue now)
  refine ⟨_, congrArg (EStateM.Result.ok · _) (h.order ▸ hready), ?_⟩
  have hleft : ∀ hash, hash ∈ (waiting.filter fun entry => !due now entry).map Prod.fst ↔
      hash ∉ node.missingParentRequests.filter (fun hash =>
        decide ((node.missingParentRetryAt[hash]?).getD 0 ≤ now)) ∧ hash ∈ waiting.map Prod.fst := by
    intro hash
    rw [← hpending, List.mem_filter, List.mem_filter, h.order]
    constructor
    · rintro ⟨hmem, hnot⟩
      exact ⟨fun hdue => by simp [hdue.2] at hnot, hmem⟩
    · rintro ⟨hnot, hmem⟩
      refine ⟨hmem, ?_⟩
      rw [Bool.not_eq_true']
      exact Bool.eq_false_iff.mpr fun hdue => hnot ⟨hmem, hdue⟩
  refine ⟨(congrArg _ h.order).trans hpending, ?_, fun hash => ?_, fun hash => ?_, fun {hash times} hmem => ?_⟩
  · exact h.once.sublist (List.filter_sublist.map Prod.fst)
  · rw [hleft, ← h.marked]
    exact OrderedMap.mem_foldl_erase
  · rw [hleft, ← h.keys]
    exact OrderedMap.mem_foldl_erase
  · obtain ⟨time, hmin, hfound⟩ := h.earliest (List.mem_of_mem_filter hmem)
    refine ⟨time, hmin, ?_⟩
    have hkept := ((hleft hash).mp (List.mem_map_of_mem hmem)).1
    exact (OrderedMap.getElem?_foldl_erase _ _ hash).trans ((if_neg hkept).trans hfound)

theorem after (call : RequestCall) : (call.after paqus node).Queues (call.waiting paqus node waiting) := by
  have hread := h.clockReads (node.clockReads + 1)
  cases call with
  | queue hash =>
    simp only [RequestCall.after, RequestCall.waiting, queueMissingParentRequest]
    rw [get_bind]
    cases hknown : paqus.contains node.forkChoice hash with
    | true => exact h
    | false =>
      rw [if_neg (by simp), if_neg (by simp), currentUnixTimestamp_bind]
      exact hread.requested hknown _
  | retry hash =>
    simp only [RequestCall.after, RequestCall.waiting, retryMissingParentRequest]
    rw [currentUnixTimestamp_bind]
    cases hknown : paqus.contains node.forkChoice hash with
    | true =>
      unfold queueMissingParentRequestAt
      rw [modify_apply, state_ok, if_pos hknown, if_pos rfl]
      exact hread
    | false =>
      rw [if_neg (by simp)]
      exact hread.requested hknown _
  | drain now =>
    obtain ⟨next, hrun, hnext⟩ := h.drained now
    simp only [RequestCall.after, RequestCall.waiting, hrun, state_ok]
    exact hnext

end Node.Queues

/-- The loop drains as if it looked at the times before it: it erases only the time of a hash that it
takes. -/
theorem drainLoop_eq (queue : List BlockHash) (drain : DrainState) :
    drainLoop now queue drain =
      let due := fun hash => decide ((drain.retryAt[hash]?).getD 0 ≤ now)
      ⟨(queue.filter due).foldl (·.erase ·) drain.requestSet, (queue.filter due).foldl (·.erase ·) drain.retryAt,
        drain.ready ++ queue.filter due, drain.pending ++ queue.filter fun hash => !due hash⟩ := by
  induction queue generalizing drain with
  | nil => simp [drainLoop]
  | cons hash queue ih =>
    rw [drainLoop]
    by_cases hdue : (drain.retryAt[hash]?).getD 0 ≤ now
    · have hsame : ∀ other : BlockHash, ((drain.retryAt.erase hash)[other]?).getD 0 ≤ now ↔
          (drain.retryAt[other]?).getD 0 ≤ now := by
        intro other
        rw [OrderedMap.getElem?_erase]
        by_cases heq : hash = other
        · rw [if_pos heq, ← heq]
          exact iff_of_true (Nat.zero_le now) hdue
        · rw [if_neg heq]
      rw [if_pos hdue, ih]
      simp [hsame, hdue]
    · rw [if_neg hdue, ih]
      simp [hdue]

theorem drainMissingParentRequestsAt_eq_loop (node : Node F) :
    drainMissingParentRequestsAt now node =
      let drain := drainLoop now node.missingParentRequests
        ⟨node.missingParentRequestSet, node.missingParentRetryAt, [], []⟩
      .ok drain.ready { node with
        missingParentRequests := drain.pending
        missingParentRequestSet := drain.requestSet
        missingParentRetryAt := drain.retryAt } := by
  rw [drainLoop_eq]
  rfl

theorem RequestRun.queues {start : Node F} (hrun : RequestRun paqus start node waiting)
    (hstart : start.Queues []) : node.Queues waiting := by
  induction hrun with
  | start => exact hstart
  | step call _ ih => exact ih.after call

/-- After any calls the three containers have the same hashes, each once; draining gives exactly the hashes
whose earliest time has come, in the order of their first requests. -/
theorem RequestRun.queue_exact {start : Node F} (hrun : RequestRun paqus start node waiting)
    (hqueue : start.missingParentRequests = []) (hset : start.missingParentRequestSet = ∅)
    (htimes : start.missingParentRetryAt = ∅) :
    node.missingParentRequests.Nodup ∧
    (∀ hash : BlockHash, hash ∈ node.missingParentRequests ↔ hash ∈ node.missingParentRequestSet) ∧
    (∀ hash : BlockHash, hash ∈ node.missingParentRequestSet ↔ hash ∈ node.missingParentRetryAt) ∧
    node.missingParentRequests = waiting.map Prod.fst ∧
    (∀ now, ∃ next, drainMissingParentRequestsAt now node = .ok ((waiting.filter (due now)).map Prod.fst) next ∧
      next.missingParentRequests = (waiting.filter fun entry => !due now entry).map Prod.fst) ∧
    ∀ (call : RequestCall) now ready next ready' next', (∀ time, call ≠ .drain time) →
      drainMissingParentRequestsAt now node = .ok ready next →
      drainMissingParentRequestsAt now (call.after paqus node) = .ok ready' next' → ready ⊆ ready' := by
  have h := hrun.queues (.empty hqueue hset htimes)
  refine ⟨h.order ▸ h.once, fun hash => ?_, fun hash => ?_, h.order, fun now => ?_, ?_⟩
  · rw [h.order, h.marked]
  · rw [h.marked, h.keys]
  · obtain ⟨next, hdrain, hnext⟩ := h.drained now
    exact ⟨next, hdrain, hnext.order⟩
  · intro call now ready next ready' next' hcall hbefore hafter
    obtain ⟨_, hdrain, _⟩ := h.drained now
    obtain ⟨_, hdrain', _⟩ := (@Node.Queues.after F paqus node waiting h call).drained now
    rw [hbefore] at hdrain
    rw [hafter] at hdrain'
    cases hdrain
    cases hdrain'
    cases call with
    | queue hash | retry hash =>
      simp only [RequestCall.waiting]
      split
      · exact fun _ hmem => hmem
      · exact due_request
    | drain time => exact absurd rfl (hcall time)

namespace Reference

def requesting (node : Node ForkTree) : Node ForkTree :=
  RequestCall.after (protocol 2) (RequestCall.after (protocol 2)
    (RequestCall.after (protocol 2) node (.queue 55)) (.retry 66)) (.retry 55)

theorem requested_twice : ∃ node, sampleRun 2 [] = .ok node ∧
    ∃ next, drainMissingParentRequestsAt 0 (requesting node) = .ok [55] next ∧
      next.missingParentRequests = [66] := by
  obtain ⟨node, hnode, hqueue, hset, htimes, hwaiting⟩ : ∃ node, sampleRun 2 [] = .ok node ∧
      let first := RequestCall.after (protocol 2) node (.queue 55)
      let second := RequestCall.after (protocol 2) first (.retry 66)
      node.missingParentRequests = [] ∧ node.missingParentRequestSet.isEmpty ∧ node.missingParentRetryAt.isEmpty ∧
        RequestCall.waiting (protocol 2) second (RequestCall.waiting (protocol 2) first
          (RequestCall.waiting (protocol 2) node [] (.queue 55)) (.retry 66)) (.retry 55) =
            [(55, [0, 5]), (66, [5])] := exists_ok_and (by decide +kernel)
  rw [Std.ExtTreeMap.isEmpty_iff] at hset htimes
  have hcalls : RequestRun (protocol 2) node (requesting node) _ :=
    .step (.retry 55) (.step (.retry 66) (.step (.queue 55) .start))
  obtain ⟨_, _, _, _, hdrain, _⟩ := hcalls.queue_exact hqueue hset htimes
  obtain ⟨next, hready, hpending⟩ := hdrain 0
  rw [hwaiting] at hready hpending
  exact ⟨node, hnode, next, hready, hpending⟩

end Reference

end PaqusNetwork
