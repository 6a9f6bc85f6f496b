import PaqusNetwork.Network.Pushed

namespace PaqusNetwork

open Effect Numeric Dialogue

def RoomFor (count : Nat) (budgets : RequestBudget × RequestBudget) : Prop :=
  budgets.1.requestCount + count ≤ maxPeerRequestsPerWindow ∧ budgets.2.requestCount + count ≤ maxPeerRequestsPerWindow

variable {F σ α : Type}

section Limits

variable (paqus : Paqus F) (api : PeerApi) (env : LinkEnv F) (ask : PeerMessage → EStateM String σ PeerMessage)

/-- Every request of the dialogue that returns gives what the peer answers. -/
def AnsweredBy : PeerDialogue α → σ → PeerLink F → Prop
  | .finished _, _, _ => True
  | .asking message next, peer, link =>
    ∀ reply after, askOnLink paqus api env message link = .ok reply after →
      ∃ peer', ask message peer = .ok reply peer' ∧ AnsweredBy (next reply) peer' after

/-- However the time passes on both sides, the check of the client never fails, and the envelopes that it writes
stay within the limit of the peer. -/
def NeverLimited (dialogue : PeerDialogue α) (budgets : RequestBudget × RequestBudget) (peer : σ) : Prop :=
  ∀ env (link : PeerLink F), Monotone env.windowClock → link.budget = budgets.1 → link.PushedNotices →
    AnsweredBy paqus api env ask dialogue peer link →
    let after := state (dialogue.run (askOnLink paqus api env) link)
    after.budget.Within ∧ ∀ serverClock, Monotone serverClock →
      budgets.2.Admits serverClock (after.sent.length - link.sent.length)

end Limits

variable {paqus : Paqus F} {api : PeerApi} {env : LinkEnv F} {ask : PeerMessage → EStateM String σ PeerMessage}
  {dialogue : PeerDialogue α} {peer : σ} {message : PeerMessage} {link : PeerLink F}

/-- With room for one request its check passes, and it is the only one. -/
theorem askOnLink_counts (hnotices : link.PushedNotices)
    (hroom : link.budget.requestCount + 1 ≤ maxPeerRequestsPerWindow) :
    let after := state (askOnLink paqus api env message link)
    after.budget.requestCount ≤ link.budget.requestCount + 1 ∧ after.sent.length ≤ link.sent.length + 1 ∧
      after.PushedNotices := by
  have hwaits := @askOnLink_waits _ paqus api env message link fun envelope hmem hzero hattached =>
    .inl (hnotices envelope hmem hzero hattached)
  obtain ⟨budget, hcheck, hcount⟩ :=
    @checkRequestBudget_room "peer request rate limit exceeded" env.windowClock link.budget hroom
  obtain ⟨hbudget, hsent, hopened⟩ : (state (openRequest api env message link)).budget.requestCount ≤
      link.budget.requestCount + 1 ∧ (state (openRequest api env message link)).sent.length ≤ link.sent.length + 1 ∧
      (state (openRequest api env message link)).PushedNotices := by
    rw [openRequest_eq, hcheck]
    split
    · exact ⟨Nat.le_succ _, Nat.le_succ _, hnotices⟩
    · dsimp only
      split
      · exact ⟨hcount, Nat.le_succ _, hnotices⟩
      · exact ⟨hcount, Nat.le_of_eq List.length_append, hnotices⟩
  refine ⟨?_, ?_, hwaits.pushes hopened⟩
  · rw [hwaits.budget]
    exact hbudget
  · rw [hwaits.sent hopened]
    exact hsent

theorem run_askOnLink (hroom : link.budget.requestCount + dialogue.turns ask peer ≤ maxPeerRequestsPerWindow)
    (hnotices : link.PushedNotices) (hanswered : AnsweredBy paqus api env ask dialogue peer link) :
    (state (dialogue.run (askOnLink paqus api env) link)).budget.Within ∧
      (state (dialogue.run (askOnLink paqus api env) link)).sent.length ≤
        link.sent.length + dialogue.turns ask peer := by
  induction dialogue generalizing peer link with
  | finished result =>
    cases result with
    | ok a => exact ⟨hroom, Nat.le_refl _⟩
    | error error => exact ⟨hroom, Nat.le_refl _⟩
  | asking message next ih =>
    have hpos : 0 < (asking message next).turns ask peer := turns_asking_pos _
    obtain ⟨hbudget, hsent, hnotices'⟩ := @askOnLink_counts _ paqus api env message _ hnotices (by omega)
    simp only [run]
    cases hrun : askOnLink paqus api env message link with
    | error error after =>
      rw [hrun] at hbudget hsent
      rw [bind_error hrun]
      simp only [state_error] at hbudget hsent ⊢
      exact ⟨by unfold RequestBudget.Within; omega, by omega⟩
    | ok reply after =>
      obtain ⟨peer', hask, hrest⟩ := hanswered reply after hrun
      rw [hrun] at hbudget hsent hnotices'
      rw [bind_ok hrun]
      simp only [turns, hask, state_ok] at hroom hbudget hsent hnotices' ⊢
      obtain ⟨hwithin, hwritten⟩ := ih reply (by omega) hnotices' hrest
      exact ⟨hwithin, by omega⟩

section Still

/-- Nothing disturbs the client, and its clock stands still. -/
def stillEnv (F : Type) (started : Nat) : LinkEnv F where
  shutdown _ := false
  now _ := 0
  windowClock _ := started
  write _ _ := .ok ()
  poisoned _ := false
  meanwhile _ node := node
  networkText _ := ""
  nodeText _ := ""
  compactText _ := ""
  codecText _ := ""

variable (api ask) in
/-- The answers of the peer, and nothing else. -/
def answers : PeerDialogue α → σ → Nat → List Receipt
  | .finished _, _, _ => []
  | .asking message next, peer, id =>
    match ask message peer with
    | .ok reply peer' => .envelope ⟨api.params.networkMagic, 0, .ofNat id, reply⟩ :: answers (next reply) peer' (id + 1)
    | .error _ _ => []

theorem openRequest_still (link : PeerLink F) :
    openRequest api (stillEnv F link.budget.windowStarted) message link =
      if link.budget.counted.requestCount ≤ maxPeerRequestsPerWindow then
        .ok (link.requestIds, 0 + persistentPeerTimeout)
          { link with
            moments := link.moments + 3, budget := link.budget.counted, requestIds := link.requestIds + 1
            sent := link.sent ++ [⟨api.params.networkMagic, .ofNat link.requestIds, 0, message⟩] }
      else .error (.failed "peer request rate limit exceeded")
        { link with moments := link.moments + 1, budget := link.budget.counted } := by
  have hrunning : ¬(stillEnv F link.budget.windowStarted).shutdown link.moments = true := Bool.false_ne_true
  rw [openRequest_eq, if_neg hrunning]
  dsimp only [stillEnv]
  rw [checkRequestBudget_frozen rfl]
  by_cases hwithin : link.budget.counted.requestCount ≤ maxPeerRequestsPerWindow
  · rw [if_pos hwithin, if_pos hwithin]
  · rw [if_neg hwithin, if_neg hwithin]

/-- A request within the limit is counted and sent. -/
structure Requested (link after : PeerLink F) : Prop where
  budget : after.budget = link.budget.counted
  sent : after.sent.length = link.sent.length + 1
  ids : after.requestIds = link.requestIds + 1
  pending : after.pendingResponses = ∅

theorem askOnLink_still (hwithin : link.budget.counted.Within) (hpending : link.pendingResponses = ∅) :
    (∀ envelope rest, link.channel = .envelope envelope :: rest → envelope.responseTo.toNat = link.requestIds →
      ∃ after, askOnLink paqus api (stillEnv F link.budget.windowStarted) message link = .ok envelope.message after ∧
        Requested link after ∧ after.channel = rest) ∧
    (link.channel = [] → ∃ error after,
      askOnLink paqus api (stillEnv F link.budget.windowStarted) message link = .error error after ∧
        Requested link after) := by
  have hopen := @openRequest_still F api message link
  rw [if_pos (show link.budget.counted.requestCount ≤ _ from hwithin)] at hopen
  simp only [askOnLink, textual, requestOnLink, requestWithin, focus, id_eq]
  rw [bind_ok hopen]
  dsimp only
  rw [get_bind, awaitResponse_turn (by simp [hpending]) ⟨rfl, show 0 < 0 + persistentPeerTimeout by decide⟩]
  refine ⟨fun envelope rest hchannel hid => ?_, fun hchannel => ?_⟩
  · rw [hchannel]
    dsimp only
    rw [if_pos hid]
    exact ⟨_, rfl, ⟨rfl, List.length_append, rfl, hpending⟩, rfl⟩
  · rw [hchannel]
    exact ⟨_, _, rfl, rfl, List.length_append, rfl, hpending⟩

theorem askOnLink_limited (hfull : ¬link.budget.counted.Within) : ∃ error after,
    askOnLink paqus api (stillEnv F link.budget.windowStarted) message link = .error error after ∧
      after.budget = link.budget.counted := by
  have hopen := @openRequest_still F api message link
  rw [if_neg (show ¬link.budget.counted.requestCount ≤ _ from hfull)] at hopen
  simp only [askOnLink, textual, requestOnLink, requestWithin, focus, id_eq]
  rw [bind_error hopen]
  exact ⟨_, _, rfl, rfl⟩

theorem run_still (hwithin : link.budget.Within) (hpending : link.pendingResponses = ∅)
    (hchannel : link.channel = answers api ask dialogue peer link.requestIds)
    (hids : link.requestIds + dialogue.turns ask peer < 2 ^ 64) :
    AnsweredBy paqus api (stillEnv F link.budget.windowStarted) ask dialogue peer link ∧
      let after := state (dialogue.run (askOnLink paqus api (stillEnv F link.budget.windowStarted)) link)
      after.budget.Within → link.budget.requestCount + dialogue.turns ask peer ≤ maxPeerRequestsPerWindow ∧
        after.sent.length = link.sent.length + dialogue.turns ask peer := by
  induction dialogue generalizing peer link with
  | finished result =>
    cases result with
    | ok a => exact ⟨trivial, fun _ => ⟨hwithin, rfl⟩⟩
    | error error => exact ⟨trivial, fun _ => ⟨hwithin, rfl⟩⟩
  | asking message next ih =>
    have hcount := RequestBudget.counted_count hwithin
    have hstill := @askOnLink_still F paqus api message link
    simp only [run]
    by_cases hroom : link.budget.counted.Within
    · obtain ⟨hanswer, hnone⟩ := hstill hroom hpending
      cases hask : ask message peer with
      | error error peer' =>
        simp only [answers, hask] at hchannel
        obtain ⟨error, after, hrun, hafter⟩ := hnone hchannel
        refine ⟨fun reply next hreply => (by rw [hrun] at hreply; cases hreply), ?_⟩
        rw [bind_error hrun]
        simp only [turns, hask, state_error]
        exact fun _ => ⟨hcount ▸ hroom, hafter.sent⟩
      | ok reply peer' =>
        simp only [answers, hask] at hchannel
        simp only [turns, hask] at hids ⊢
        obtain ⟨after, hrun, hafter, hrest⟩ := hanswer _ _ hchannel
          (Nat.mod_eq_of_lt (show link.requestIds < 2 ^ 64 by omega))
        have hbudget := hafter.budget
        have hlater := @ih reply peer' after (by rw [hbudget]; exact hroom) hafter.pending
          (by rw [hrest, hafter.ids]) (by rw [hafter.ids]; omega)
        have hsame : link.budget.counted.windowStarted = link.budget.windowStarted := rfl
        rw [hbudget, hafter.sent, hcount, hsame] at hlater
        refine ⟨fun reply' after' hreply => ?_, ?_⟩
        · rw [hrun] at hreply
          cases hreply
          exact ⟨peer', hask, hlater.1⟩
        · rw [bind_ok hrun]
          intro hlimit
          obtain ⟨hleft, hsent⟩ := hlater.2 hlimit
          exact ⟨by omega, hsent.trans (by omega)⟩
    · obtain ⟨error, after, hrun, hbudget⟩ := @askOnLink_limited F paqus api message link hroom
      refine ⟨fun reply next hreply => (by rw [hrun] at hreply; cases hreply), ?_⟩
      rw [bind_error hrun]
      exact fun hlimit => absurd (hbudget ▸ hlimit) hroom

end Still

variable {budget : RequestBudget} {clock : Nat → Nat} {count : Nat}

theorem admits_of_room (h : budget.requestCount + count ≤ maxPeerRequestsPerWindow) : budget.Admits clock count := by
  induction count generalizing budget with
  | zero => trivial
  | succ count ih =>
    have hle := budget.renewed_count_le clock
    have hnext : (budget.renewed clock).requested.requestCount ≤ budget.requestCount + 1 :=
      Nat.le_trans (Nat.min_le_left _ _) (Nat.succ_le_succ hle)
    exact ⟨by unfold RequestBudget.Within; omega, ih (by omega)⟩

theorem room_of_admits (hwithin : budget.Within) (h : budget.Admits (fun _ => budget.windowStarted) count) :
    budget.requestCount + count ≤ maxPeerRequestsPerWindow := by
  induction count generalizing budget with
  | zero => exact hwithin
  | succ count ih =>
    have hsame : (budget.renewed fun _ => budget.windowStarted).requested = budget.counted := by
      unfold RequestBudget.renewed
      rw [if_neg (by simp [peerRequestWindow])]
      rfl
    unfold RequestBudget.Admits at h
    rw [hsame] at h
    have hrest := ih h.1 h.2
    rw [RequestBudget.counted_count hwithin] at hrest
    omega

theorem neverLimited_iff {budgets : RequestBudget × RequestBudget} (node : Node F)
    (hwithin : budgets.1.Within ∧ budgets.2.Within) (hturns : dialogue.turns ask peer < u64Max) :
    NeverLimited paqus api ask dialogue budgets peer ↔ RoomFor (dialogue.turns ask peer) budgets := by
  constructor
  · intro hnever
    -- The clocks stand still, so that no window is renewed.
    let link : PeerLink F := { PeerLink.connect node 0 (answers api ask dialogue peer 1) with budget := budgets.1 }
    have hids : link.requestIds + dialogue.turns ask peer < 2 ^ 64 := by
      have hmax : u64Max + 1 = 2 ^ 64 := by decide
      have hone : link.requestIds = 1 := rfl
      omega
    obtain ⟨hanswered, hstill⟩ := @run_still _ _ _ paqus api ask dialogue peer link hwithin.1 rfl rfl hids
    obtain ⟨hclient, hserver⟩ := hnever _ link monotone_const rfl (fun _ _ _ hattached => nomatch hattached) hanswered
    obtain ⟨hroom, hsent⟩ := hstill hclient
    have hadmits := hserver (fun _ => budgets.2.windowStarted) monotone_const
    rw [hsent, Nat.add_sub_cancel_left] at hadmits
    exact ⟨hroom, room_of_admits hwithin.2 hadmits⟩
  · intro hroom env link _ hbudget hnotices hanswered
    obtain ⟨hclient, hsent⟩ := run_askOnLink (by rw [hbudget]; exact hroom.1) hnotices hanswered
    refine ⟨hclient, fun clock _ => admits_of_room ?_⟩
    have hserver := hroom.2
    omega

variable {meanwhile : Nat → Node F → Node F}

theorem Host.requests_run (dialogue : PeerDialogue α) (host : Host F) :
    (state (dialogue.run (Host.ask paqus api meanwhile) host)).requests =
      host.requests + dialogue.turns (Host.ask paqus api meanwhile) host := by
  induction dialogue generalizing host with
  | finished result =>
    cases result with
    | ok _ => rfl
    | error _ => rfl
  | asking message next ih =>
    have hcount : (state (Host.ask paqus api meanwhile message host)).requests = host.requests + 1 := by
      unfold Host.ask
      split
      · rfl
      · rfl
      · rfl
    simp only [run, turns]
    cases hreply : Host.ask paqus api meanwhile message host with
    | ok reply host' =>
      rw [hreply, state_ok] at hcount
      rw [bind_ok hreply, ih reply host', hcount]
      dsimp only
      omega
    | error error host' =>
      rw [hreply, state_error] at hcount
      rw [bind_error hreply, state_error, hcount]

/-- A peer with the whole chain and the snapshot of its tip, whose ledger does not change. -/
structure FullPeer (paqus : Paqus F) (api : PeerApi) (meanwhile : Nat → Node F → Node F) (host : Host F)
    (tip : TipInfo) (bytes : List UInt8) : Prop where
  steady : Steady paqus api meanwhile
  keeps_work : ∀ count node, (tipWork paqus node).isSome → (tipWork paqus (meanwhile count node)).isSome
  work : (tipWork paqus host.node).isSome
  snapshot : host.Snapshot paqus api tip bytes
  archive : Archive paqus host.node.ledger.chain tip.height
  room : tip.height < u64Max
  genesis : ∀ header, host.node.ledger.chain.headers[0]? = some header → header.previousHash = 0

theorem VersionInfo.validateCompatibility_ofParams (params : ChainParams) (tip : Option TipInfo) :
    (VersionInfo.ofParams params tip).validateCompatibility params = .ok () := by
  simp [VersionInfo.validateCompatibility, VersionInfo.ofParams]

def Host.read (meanwhile : Nat → Node F → Node F) (host : Host F) : Host F :=
  ⟨meanwhile host.requests host.node, host.requests + 1⟩

theorem handshake_honest (host : Host F) :
    (handshakeBootstrapPeer api).run (Host.ask paqus api meanwhile) host = .ok () (host.read meanwhile) := by
  have hask : Host.ask paqus api meanwhile (.version (VersionInfo.ofParams api.params none)) host =
      .ok (.verAck (VersionInfo.ofParams api.params (localTip paqus (meanwhile host.requests host.node))))
        (host.read meanwhile) := by
    refine Host.ask_reply ?_
    unfold handlePeerMessage
    rw [get_bind]
    dsimp only
    rw [VersionInfo.validateCompatibility_ofParams]
    rfl
  unfold handshakeBootstrapPeer
  rw [run_bind, run_ask, bind_ok hask]
  dsimp only
  rw [VersionInfo.validateCompatibility_ofParams]
  rfl

theorem turns_one {dialogue : PeerDialogue α} {host : Host F} {a : α}
    (h : dialogue.run (Host.ask paqus api meanwhile) host = .ok a (host.read meanwhile)) :
    dialogue.turns (Host.ask paqus api meanwhile) host = 1 := by
  have hcount := @Host.requests_run _ _ paqus api meanwhile dialogue host
  rw [h, state_ok] at hcount
  simp only [Host.read] at hcount
  omega

section Full

variable {host : Host F} {tip : TipInfo} {bytes : List UInt8}

section

variable (h : FullPeer paqus api meanwhile host tip bytes)

include h

theorem FullPeer.read : FullPeer paqus api meanwhile (host.read meanwhile) tip bytes := by
  obtain ⟨hserves, hledger⟩ := h.steady host.requests host.node
  have hread : (host.read meanwhile).node.ledger = host.node.ledger := hledger
  obtain ⟨⟨start, hstart, hbefore⟩, htipHeight, htipHash, hsnapshot, hpos, hmax⟩ := h.snapshot
  refine ⟨h.steady, h.keeps_work, h.keeps_work _ _ h.work, ?_, by rw [hread]; exact h.archive, h.room,
    by rw [hread]; exact h.genesis⟩
  refine ⟨⟨start, hstart, hbefore.trans hserves⟩, ?_, ?_, ?_, hpos, hmax⟩
  · rw [hread, htipHeight]
  · rw [hread, htipHash]
  · rw [hread, hsnapshot]

theorem requestTip_honest :
    ∃ info : TipInfo, requestTip.run (Host.ask paqus api meanwhile) host = .ok info (host.read meanwhile) ∧
      info.height = tip.height := by
  have hread := h.read
  obtain ⟨work, hwork⟩ := Option.isSome_iff_exists.mp hread.work
  have htip : localTip paqus (meanwhile host.requests host.node) = some ⟨tip.height, tip.hash, work⟩ := by
    have htipHeight : (meanwhile host.requests host.node).ledger.tipHeight = some tip.height := hread.snapshot.tipHeight
    have htipHash : (meanwhile host.requests host.node).ledger.tipHash = some tip.hash := hread.snapshot.tipHash
    have hwork' : tipWork paqus (meanwhile host.requests host.node) = some work := hwork
    simp [localTip, htipHeight, htipHash, hwork']
  have hask : Host.ask paqus api meanwhile (.chain .getTip) host =
      .ok (.chain (.tip ⟨tip.height, tip.hash, work⟩)) (host.read meanwhile) := by
    have hinner : handleMessage paqus .getTip (meanwhile host.requests host.node) =
        .ok ((localTip paqus (meanwhile host.requests host.node)).map .tip) (meanwhile host.requests host.node) := rfl
    refine Host.ask_reply ?_
    unfold handlePeerMessage
    rw [get_bind]
    dsimp only
    rw [bind_ok hinner, htip]
    rfl
  refine ⟨⟨tip.height, tip.hash, work⟩, ?_, rfl⟩
  unfold requestTip
  rw [run_bind, run_ask, bind_ok hask]
  rfl

theorem turns_fetchHeaders {anchorHash : BlockHash}
    (hanchor : (HeaderSync.mk start anchorHash []).Follows host.node.ledger.chain) (target : Nat) :
    (fetchHeaders paqus start target anchorHash).turns (Host.ask paqus api meanwhile) host =
      rangeRequests start target tip.height :=
  turns_fetchRange (answersRange_headers h.steady h.archive h.room target) ⟨rfl, hanchor⟩ (by dsimp only; omega)

theorem turns_downloadHeaders :
    (downloadHeaders paqus api).turns (Host.ask paqus api meanwhile) host =
      2 + chunkCount (tip.height + 1) maxBlocksPerBatch := by
  have hread := h.read
  obtain ⟨info, hinfo, hheight⟩ := requestTip_honest hread
  have hanchor : (HeaderSync.mk 0 0 []).Follows ((host.read meanwhile).read meanwhile).node.ledger.chain :=
    fun _ => hread.read.genesis
  have hrange := turns_fetchHeaders hread.read hanchor info.height
  have hall : rangeRequests 0 tip.height tip.height = chunkCount (tip.height + 1) maxBlocksPerBatch := by
    simp [rangeRequests]
  unfold downloadHeaders
  rw [turns_bind, handshake_honest, turns_one (handshake_honest host)]
  dsimp only
  rw [turns_bind, hinfo, turns_one hinfo]
  dsimp only
  rw [hrange, hheight, hall]
  omega

theorem turns_fetchSnapshot :
    (fetchSnapshot api tip).turns (Host.ask paqus api meanwhile) host =
      2 + chunkCount bytes.length snapshotChunkSize := by
  have hread := h.read
  obtain ⟨last, hlast, hcount⟩ := downloadSnapshot_honest hread.steady hread.snapshot.offers
    hread.snapshot.nonempty hread.snapshot.bounded
  have hrun : (fetchSnapshot api tip).run (Host.ask paqus api meanwhile) host = .ok (some bytes) last := by
    unfold fetchSnapshot
    rw [run_bind, bind_ok (handshake_honest host)]
    exact hlast
  have hturns := @Host.requests_run _ _ paqus api meanwhile (fetchSnapshot api tip) host
  rw [hrun, state_ok, hcount] at hturns
  have hrequests : (host.read meanwhile).requests = host.requests + 1 := rfl
  omega

end

/-- However the time passes, the downloads are never limited exactly when the windows have room for their
requests. -/
theorem operations_neverLimited_iff (h : FullPeer paqus api meanwhile host tip bytes)
    (budgets : RequestBudget × RequestBudget) (hwithin : budgets.1.Within ∧ budgets.2.Within) :
    (NeverLimited paqus api (Host.ask paqus api meanwhile) (downloadHeaders paqus api) budgets host ↔
      RoomFor (2 + chunkCount (tip.height + 1) maxBlocksPerBatch) budgets) ∧
    (NeverLimited paqus api (Host.ask paqus api meanwhile) (fetchSnapshot api tip) budgets host ↔
      RoomFor (2 + chunkCount bytes.length snapshotChunkSize) budgets) ∧
    (∀ start target anchorHash, (HeaderSync.mk start anchorHash []).Follows host.node.ledger.chain →
      (NeverLimited paqus api (Host.ask paqus api meanwhile) (fetchHeaders paqus start target anchorHash) budgets host ↔
        RoomFor (rangeRequests start target tip.height) budgets)) ∧
    ∀ start target headers, (BlockSync.mk start headers []).Expects host.node.ledger.chain (min target tip.height) →
      (NeverLimited paqus api (Host.ask paqus api meanwhile) (fetchBlocks start target headers) budgets host ↔
        RoomFor (rangeRequests start target tip.height) budgets) := by
  have hiff : ∀ {α} {dialogue : PeerDialogue α} {count},
      dialogue.turns (Host.ask paqus api meanwhile) host = count → count < u64Max →
      (NeverLimited paqus api (Host.ask paqus api meanwhile) dialogue budgets host ↔ RoomFor count budgets) := by
    intro α dialogue count hturns hcount
    subst hturns
    exact neverLimited_iff host.node hwithin hcount
  have hroom := h.room
  have hsize := h.snapshot.bounded
  have hrange : ∀ start target, rangeRequests start target tip.height < u64Max := by
    intro start target
    simp only [rangeRequests, chunkCount, maxBlocksPerBatch, u64Max] at hroom ⊢
    split <;> omega
  refine ⟨hiff (turns_downloadHeaders h) ?_, hiff (turns_fetchSnapshot h) ?_, fun start target anchorHash hanchor => ?_,
    fun start target headers hheaders => ?_⟩
  · simp only [chunkCount, maxBlocksPerBatch, u64Max] at hroom ⊢
    omega
  · simp only [chunkCount, snapshotChunkSize, maxFastSyncBundleSize, u64Max] at hsize ⊢
    omega
  · exact hiff (turns_fetchHeaders h hanchor target) (hrange start target)
  · exact hiff (turns_fetchRange (answersRange_blocks h.steady h.archive h.room target) ⟨rfl, hheaders⟩
      (by dsimp only; omega)) (hrange start target)

end Full

namespace Reference

def newConnection : RequestBudget × RequestBudget := (⟨0, 0, 0⟩, ⟨0, 0, 0⟩)

theorem freshPeer {bytes : List UInt8} (hbytes : ∀ ledger, api.snapshotPaqusBytes ledger = .ok bytes)
    (hpos : 0 < bytes.length) (hmax : bytes.length ≤ maxFastSyncBundleSize) :
    ∃ node, sampleRun 2 [] = .ok node ∧
      FullPeer (protocol 2) api (fun _ node => node) ⟨node, 0⟩ ⟨0, 100, 1⟩ bytes := by
  obtain ⟨node, hnode, htipHeight, hgenesis⟩ : ∃ node, sampleRun 2 [] = .ok node ∧ node.ledger.tipHeight = some 0 ∧
      node.ledger.chain.headers[0]?.map BlockHeader.previousHash = some 0 := exists_ok_and (by decide +kernel)
  refine ⟨node, hnode, fun _ _ => ⟨.start, rfl⟩, fun _ _ h => h, of_ok hnode (by decide +kernel),
    ⟨⟨node, of_ok hnode (by decide +kernel), .start⟩, htipHeight, of_ok hnode (by decide +kernel), hbytes _, hpos,
      hmax⟩,
    (reachable_sound (protocol_laws 2) (sampleRun_reachable hnode)).archive (protocol_laws 2) htipHeight,
    by decide, ?_⟩
  intro header hheader
  rw [show node.ledger.chain.headers[0]? = some header from hheader] at hgenesis
  exact Option.some.inj hgenesis

theorem fresh_neverLimited : ∃ node, sampleRun 2 [] = .ok node ∧
    NeverLimited (protocol 2) peerApi (Host.ask (protocol 2) peerApi fun _ node => node)
      (downloadHeaders (protocol 2) peerApi)
      newConnection ⟨node, 0⟩ ∧
    NeverLimited (protocol 2) peerApi (Host.ask (protocol 2) peerApi fun _ node => node)
      (fetchSnapshot peerApi ⟨0, 100, 1⟩)
      newConnection ⟨node, 0⟩ := by
  obtain ⟨node, hnode, hpeer⟩ := @freshPeer peerApi [9, 9, 9, 9, 3] (fun _ => rfl) (by decide) (by decide)
  obtain ⟨hheaders, hsnapshot, _⟩ := operations_neverLimited_iff hpeer newConnection ⟨Nat.zero_le _, Nat.zero_le _⟩
  exact ⟨node, hnode, hheaders.mpr ⟨by decide, by decide⟩, hsnapshot.mpr ⟨by decide, by decide⟩⟩

def largeApi : PeerApi := { peerApi with snapshotPaqusBytes := fun _ => .ok (List.replicate maxFastSyncBundleSize 0) }

/-- The download of the largest snapshot takes 77 requests on a new connection, and is limited when they are
made within one window. -/
theorem largest_snapshot_limited : ∃ node, sampleRun 2 [] = .ok node ∧
    FullPeer (protocol 2) largeApi (fun _ node => node) ⟨node, 0⟩ ⟨0, 100, 1⟩ (List.replicate maxFastSyncBundleSize 0) ∧
    (fetchSnapshot largeApi ⟨0, 100, 1⟩).turns (Host.ask (protocol 2) largeApi fun _ node => node) ⟨node, 0⟩ = 77 ∧
    ¬NeverLimited (protocol 2) largeApi (Host.ask (protocol 2) largeApi fun _ node => node)
      (fetchSnapshot largeApi ⟨0, 100, 1⟩)
      newConnection ⟨node, 0⟩ := by
  have hlength : (List.replicate maxFastSyncBundleSize (0 : UInt8)).length = maxFastSyncBundleSize :=
    List.length_replicate
  obtain ⟨node, hnode, hpeer⟩ := @freshPeer largeApi (List.replicate maxFastSyncBundleSize 0) (fun _ => rfl)
    (by rw [hlength]; decide) (by rw [hlength])
  have hturns := turns_fetchSnapshot hpeer
  rw [hlength, show 2 + chunkCount maxFastSyncBundleSize snapshotChunkSize = 77 by decide] at hturns
  refine ⟨node, hnode, hpeer, hturns, fun hnever => ?_⟩
  have hroom := (neverLimited_iff node ⟨Nat.zero_le _, Nat.zero_le _⟩ (by rw [hturns]; decide)).mp hnever
  rw [hturns] at hroom
  exact absurd hroom.1 (by decide)

end Reference

end PaqusNetwork
