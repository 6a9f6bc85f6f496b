import PaqusNetwork.Network.RequestSteps

namespace PaqusNetwork

open Effect

/-- Messages that a node answers with nothing. -/
def PeerMessage.isNotice : PeerMessage → Bool
  | .chain (.reject ..) | .chain (.pong _) | .chain (.tip _) | .chain (.commonAncestor _) | .chain (.block _)
  | .chain (.blocks _) | .chain (.blockHeaders _) | .verAck _ | .snapshotManifest .. | .snapshotChunk ..
  | .transaction _ | .transactions _ | .peers _ => true
  | _ => false

/-- The messages whose handling gives blocks to `apply_block`, at once or after further requests. -/
def PeerMessage.bringsBlocks : PeerMessage → Bool
  | .chain (.block _) | .chain (.blocks _) | .compactBlock _ | .compactBlockTransactions .. | .inventory _ => true
  | _ => false

variable {F : Type} {paqus : Paqus F} {api : PeerApi} {env : LinkEnv F} {message : PeerMessage} {link : PeerLink F}

theorem blocksGiven_nil (h : message.bringsBlocks = false) (node : Node F) : blocksGiven paqus message node = [] := by
  unfold blocksGiven
  split
  · cases h
  · cases h
  · cases h
  · cases h
  · rfl

theorem handleMessage_notice {message : NetworkMessage} (h : (PeerMessage.chain message).isNotice = true) :
    Brings (· = none) (handleMessage paqus message) := by
  refine Brings.later fun node => ?_
  cases message with
  | block block => exact Brings.later fun _ => Brings.pure rfl
  | blocks blocks => exact Brings.later fun _ => Brings.pure rfl
  | reject | pong | tip | commonAncestor | blockHeaders => exact Brings.pure rfl
  | _ => cases h

theorem handlePeerMessage_notice (h : message.isNotice = true) :
    Brings (· = none) (handlePeerMessage paqus api message) := by
  refine Brings.later fun node => ?_
  cases message with
  | chain message =>
    intro node response next hresponse
    obtain ⟨inner, _, hinner, hresponse⟩ := bind_eq_ok.mp hresponse
    cases hresponse
    rw [handleMessage_notice h _ _ _ hinner]
    rfl
  | transaction | transactions => exact Brings.later fun _ => Brings.pure rfl
  | verAck | snapshotManifest | snapshotChunk | peers => exact Brings.pure rfl
  | _ => cases h

/-- Only an inventory is answered with a request for what it names. -/
theorem handlePeerMessage_data (h : message.bringsBlocks = false) :
    Brings (fun response => ∀ items, response ≠ some (.getData items)) (handlePeerMessage paqus api message) := by
  refine Brings.later fun node => ?_
  cases message with
  | chain message =>
    refine Brings.later fun response => Brings.pure fun items => ?_
    cases response <;> exact nofun
  | version version =>
    dsimp only
    split
    · exact Brings.pure nofun
    · exact Brings.pure nofun
  | verAck | snapshotManifest | snapshotChunk | peers | getPeers => exact Brings.pure nofun
  | getSnapshotManifest height blockHash =>
    refine Brings.later fun node => ?_
    split
    · exact Brings.pure nofun
    · exact Brings.later fun bytes => Brings.pure nofun
  | getSnapshotChunk height blockHash offset length =>
    refine Brings.later fun node => ?_
    split
    · exact Brings.pure nofun
    · refine Brings.later fun bytes => Brings.pure fun items => ?_
      simp only [snapshotChunkOf]
      split <;> exact nofun
  | getData items =>
    refine Brings.pure fun items => ?_
    simp only [dataReply]
    split
    · exact nofun
    · split <;> exact nofun
  | transaction | transactions => exact Brings.later fun _ => Brings.pure nofun
  | getMempoolInventory => exact Brings.later fun _ => Brings.pure nofun
  | reconcileMempool epoch shortIds =>
    intro node response next hresponse items
    obtain ⟨reply, hreply, hresponse⟩ := liftExcept_bind_eq_ok.mp hresponse
    cases hresponse
    unfold reconcileReply at hreply
    split at hreply
    · cases hreply
      exact nofun
    · obtain ⟨missing, _, hreply⟩ := except_bind_eq_ok.mp hreply
      cases hreply
      exact nofun
  | getCompactBlockTransactions blockHash indexes =>
    refine Brings.pure fun items => ?_
    simp only [compactTransactionsReply]
    split
    · exact nofun
    · split
      · exact nofun
      · split
        · exact nofun
        · split <;> exact nofun
  | _ => cases h

theorem underLock_eq {ε α : Type} {text : ε → LinkError} {given : Node F → List Block}
    {program : EStateM ε (Node F) α} : underLock env text given program link =
    if env.poisoned link.moments then
      .error (.failed "node state lock poisoned") { link with moments := link.moments + 1 }
    else
      let node := env.meanwhile link.moments link.node
      let locked := { link with moments := link.moments + 1, given := link.given ++ given node }
      match program node with
      | .ok a node => .ok a { locked with node }
      | .error error node => .error (text error) { locked with node } := by
  unfold underLock
  rw [bind_ok (moment_apply _)]
  cases env.poisoned link.moments with
  | true => rfl
  | false =>
    rw [Bool.not_false, ensure_true, pure_bind, modify_bind, modify_bind, if_neg Bool.false_ne_true]
    simp only [focus]
    cases program (env.meanwhile link.moments link.node) <;> rfl

theorem writeEnvelope_state (text : String) (envelope : NetworkEnvelope PeerMessage) (link : PeerLink F) :
    ∃ sent, state (writeEnvelope env text envelope link) = { link with moments := link.moments + 1, sent } := by
  unfold writeEnvelope
  rw [bind_ok (moment_apply _)]
  cases env.write link.moments envelope with
  | error error => exact ⟨link.sent, rfl⟩
  | ok done => exact ⟨_, rfl⟩

/-- What handling a message without further requests changes. -/
structure Noticed (message : PeerMessage) (link next : PeerLink F) : Prop where
  same : next = { link with node := next.node, moments := next.moments, given := next.given, sent := next.sent }
  sent : (link.attached = true → message.isNotice = true) → next.sent = link.sent
  given : (link.attached = true → message.bringsBlocks = false) → next.given = link.given

theorem handleUnsolicited_noticed {request : PeerMessage → LinkM F PeerMessage} {requestId : UInt64}
    (h : link.attached = true → message.isNotice = true ∨ message.bringsBlocks = false) :
    Noticed message link (state (handleUnsolicited paqus api env request requestId message link)) := by
  have hdone : ∀ {node moments}, Noticed message link { link with node, moments } :=
    fun {node moments} => ⟨rfl, fun _ => rfl, fun _ => rfl⟩
  unfold handleUnsolicited
  split
  next compact =>
    unfold handleCompactBlock
    cases compact.blockHash paqus with
    | error error => exact hdone
    | ok blockHash =>
      rw [liftExcept_ok, pure_bind, get_bind]
      cases hattached : link.attached with
      | false => exact hdone
      | true => rcases h hattached with h | h <;> cases h
  next =>
    rw [get_bind]
    cases hattached : link.attached with
    | false => exact hdone
    | true =>
      rw [Bool.not_true, if_neg Bool.false_ne_true]
      cases hpoisoned : env.poisoned link.moments with
      | true =>
        rw [bind_error (by rw [underLock_eq, if_pos hpoisoned])]
        exact hdone
      | false =>
        have hopen : ¬env.poisoned link.moments = true := by simp [hpoisoned]
        have hsame : ∀ {node : Node F}, message.bringsBlocks = false →
            link.given ++ blocksGiven paqus message node = link.given := by
          intro node hblocks
          rw [blocksGiven_nil hblocks, List.append_nil]
        cases hrun : handlePeerMessage paqus api message (env.meanwhile link.moments link.node) with
        | error error node =>
          rw [bind_error (by rw [underLock_eq, if_neg hopen]; dsimp only; rw [hrun])]
          exact ⟨rfl, fun _ => rfl, fun hblocks => hsame (hblocks hattached)⟩
        | ok response node =>
          rw [bind_ok (by rw [underLock_eq, if_neg hopen]; dsimp only; rw [hrun])]
          cases response with
          | none => exact ⟨rfl, fun _ => rfl, fun hblocks => hsame (hblocks hattached)⟩
          | some reply =>
            have hloud : message.isNotice ≠ true := fun hnotice =>
              nomatch handlePeerMessage_notice hnotice _ _ _ hrun
            have hblocks := (h hattached).resolve_left hloud
            have hdata := handlePeerMessage_data hblocks _ _ _ hrun
            cases reply with
            | getData items => exact absurd rfl (hdata items)
            | _ =>
              obtain ⟨sent, hsent⟩ := writeEnvelope_state _ _ _
              dsimp only
              rw [hsent]
              exact ⟨rfl, fun hnotice => absurd (hnotice hattached) hloud, fun _ => hsame hblocks⟩

/-- What the peer sends on its own, if the connection has a node. -/
def PeerLink.Pushes (P : PeerMessage → Prop) (link : PeerLink F) : Prop :=
  ∀ envelope, .envelope envelope ∈ link.channel → envelope.responseTo = 0 → link.attached = true → P envelope.message

def PeerLink.PushedNotices (link : PeerLink F) : Prop := link.Pushes (·.isNotice = true)

def PeerLink.PushedNoBlocks (link : PeerLink F) : Prop := link.Pushes (·.bringsBlocks = false)

/-- What waiting for a response leaves as it is. -/
structure Waiting (start link : PeerLink F) : Prop where
  attached : link.attached = start.attached
  budget : link.budget = start.budget
  channel : link.channel <:+ start.channel
  sent : start.PushedNotices → link.sent = start.sent
  given : start.PushedNoBlocks → link.given = start.given

variable {start : PeerLink F}

theorem Waiting.refl (link : PeerLink F) : Waiting link link := ⟨rfl, rfl, List.suffix_rfl, fun _ => rfl, fun _ => rfl⟩

theorem Waiting.received {receipt : Receipt} {rest : List Receipt} (h : Waiting start link)
    (head : link.channel = receipt :: rest) : Waiting start (link.received rest) := by
  refine ⟨h.attached, h.budget, (List.suffix_cons receipt rest).trans ?_, h.sent, h.given⟩
  rw [← head]
  exact h.channel

theorem Waiting.pushes {P : PeerMessage → Prop} (h : Waiting start link) (hstart : start.Pushes P) : link.Pushes P :=
  fun envelope hmem hzero hattached =>
    hstart envelope (h.channel.subset hmem) hzero (h.attached.symm.trans hattached)

theorem waiting_turns (paqus : Paqus F) (api : PeerApi) (env : LinkEnv F)
    (hstart : start.Pushes fun message => message.isNotice = true ∨ message.bringsBlocks = false) (id : Nat)
    (request : PeerMessage → LinkM F PeerMessage) :
    TurnInvariant (handleUnsolicited paqus api env request) (fun _ => True) id (Waiting start) where
  failed _ := trivial
  moments _ h := ⟨h.attached, h.budget, h.channel, h.sent, h.given⟩
  skipped h head := h.received head
  parked h head _ _ := ⟨h.attached, h.budget, (h.received head).channel, h.sent, h.given⟩
  handled {link envelope rest} h head hzero := by
    have hmem : .envelope envelope ∈ link.channel := by
      rw [head]
      exact List.mem_cons_self
    have hnoticed := @handleUnsolicited_noticed _ paqus api env _ (link.received rest) request envelope.requestId
      (h.pushes hstart envelope hmem hzero)
    refine ⟨⟨?_, ?_⟩, fun _ _ _ => trivial⟩
    · have hrest := h.received head
      rw [hnoticed.same]
      exact ⟨hrest.attached, hrest.budget, hrest.channel,
        fun hpushed => (hnoticed.sent (h.pushes hpushed envelope hmem hzero)).trans (h.sent hpushed),
        fun hpushed => (hnoticed.given (h.pushes hpushed envelope hmem hzero)).trans (h.given hpushed)⟩
    · rw [hnoticed.same]
      exact Nat.le_refl _

theorem openRequest_state (link : PeerLink F) :
    let opened := state (openRequest api env message link)
    opened.attached = link.attached ∧ opened.channel = link.channel ∧ opened.given = link.given := by
  rw [openRequest_eq]
  split
  · exact ⟨rfl, rfl, rfl⟩
  · split
    · exact ⟨rfl, rfl, rfl⟩
    · dsimp only
      split
      · exact ⟨rfl, rfl, rfl⟩
      · exact ⟨rfl, rfl, rfl⟩

/-- After its request was sent, a call only waits. -/
theorem askOnLink_waits (h : link.Pushes fun message => message.isNotice = true ∨ message.bringsBlocks = false) :
    Waiting (state (openRequest api env message link)) (state (askOnLink paqus api env message link)) := by
  simp only [askOnLink, textual, requestOnLink, requestWithin, state_focus, id_eq]
  cases hopen : openRequest api env message link with
  | error error next =>
    rw [bind_error hopen]
    exact .refl next
  | ok call opened =>
    obtain ⟨id, deadline⟩ := call
    obtain ⟨rfl, _, _, _, _, _, hopened⟩ := openRequest_ok hopen
    have hpushes : opened.Pushes fun message => message.isNotice = true ∨ message.bringsBlocks = false := by
      rw [hopened]
      exact h
    rw [bind_ok hopen]
    dsimp only
    rw [get_bind]
    have hturns := waiting_turns paqus api env hpushes link.requestIds (requestWithin paqus api env link.channel.length)
    have hends := @awaitResponse_ends _ opened (Waiting opened) env _ _ _ hturns deadline _ (.refl opened)
      (Nat.lt_succ_self _)
    generalize awaitResponse env _ link.requestIds deadline _ _ = result at hends ⊢
    cases hends with
    | collected kept found => exact ⟨kept.attached, kept.budget, kept.channel, kept.sent, kept.given⟩
    | received kept head own => exact ⟨kept.attached, kept.budget, (kept.received head).channel, kept.sent, kept.given⟩
    | failed kept _ => exact kept

end PaqusNetwork
