import PaqusNetwork.Network.Ranges
import PaqusNetwork.Network.RequestMatching

namespace PaqusNetwork

open Effect Numeric

variable {F : Type}

variable {ranges : List SyncRange} {joined : Joined}

variable {applying : Applying F}

section Workers

variable {paqus : Paqus F} {api : PeerApi} {world : SyncWorld F} {publicAddrs : List String} {range : SyncRange}
  {attempt : Nat} {blocks : List Block} {index : Nat}

section Quiet

variable {env : LinkEnv F} {α : Type}

/-- What the peer sends on its own brings no blocks. -/
def QuietChannel (channel : List Receipt) : Prop :=
  ∀ envelope, .envelope envelope ∈ channel → envelope.responseTo = 0 → envelope.message.bringsBlocks = false

variable (world) in
def SyncWorld.Quiet : Prop := ∀ purpose addr channel, world.connect purpose addr = .ok channel → QuietChannel channel

/-- Nothing was given to `apply_block` on the connection, nor will be. -/
def PeerLink.Silent (link : PeerLink F) : Prop := QuietChannel link.channel ∧ link.given = []

theorem askOnLink_silent (message : PeerMessage) : Keeps PeerLink.Silent (askOnLink paqus api env message) := by
  rintro link ⟨hquiet, hgiven⟩
  obtain ⟨_, hchannel, hsame⟩ := @openRequest_state _ api env message link
  have hwaits := @askOnLink_waits _ paqus api env message link fun envelope hmem hzero _ =>
    .inr (hquiet envelope hmem hzero)
  refine ⟨fun envelope hmem => hquiet envelope (hchannel ▸ hwaits.channel.subset hmem), ?_⟩
  rw [hwaits.given fun envelope hmem hzero _ => hquiet envelope (hchannel ▸ hmem) hzero, hsame, hgiven]

theorem textual_keeps {I : PeerLink F → Prop} {program : LinkM F α} (h : Keeps I program) :
    Keeps I (textual program) := by
  intro link hlink
  rw [textual, state_focus]
  exact h link hlink

theorem readNode_silent (read : Node F → α) : Keeps PeerLink.Silent (readNode env read) := by
  refine textual_keeps fun link h => ?_
  rw [underLock_eq]
  split
  · exact h
  · exact ⟨h.1, (List.append_nil _).trans h.2⟩

theorem sendOnLink_silent (message : PeerMessage) : Keeps PeerLink.Silent (sendOnLink api env message) := by
  have hbudget : Keeps PeerLink.Silent (linkBudget env) := by
    intro link h
    rw [linkBudget, state_focus]
    exact h
  have hmoment : Keeps PeerLink.Silent (moment : LinkM F Nat) := fun _ h => h
  exact (Keeps.bind hmoment fun _ => Keeps.ensure _ _).bind fun _ => hbudget.bind fun _ =>
    hmoment.bind fun _ => Keeps.bind_liftExcept fun _ _ => Yields.modify fun _ h => h

theorem handshakePeer_silent : Keeps PeerLink.Silent (handshakePeer paqus api publicAddrs env) := by
  refine Keeps.bind (Yields.modify fun _ h => h) fun _ => (readNode_silent _).bind fun tip =>
    (askOnLink_silent _).bind fun reply => ?_
  split
  · exact Keeps.bind_liftExcept fun _ _ => Keeps.runIf _ (textual_keeps (sendOnLink_silent _))
  · exact Keeps.throw _
  · exact Keeps.throw _

theorem followLeader_silent (remoteTip : TipInfo) (syncWindow : Nat) :
    Keeps PeerLink.Silent (followLeader paqus api publicAddrs remoteTip syncWindow env) := by
  refine handshakePeer_silent.bind fun _ => Keeps.bind ?_ fun ancestor => ?_
  · refine (readNode_silent _).bind fun located => Keeps.bind_liftExcept fun locator _ =>
      (askOnLink_silent _).bind fun reply => ?_
    split
    · exact Keeps.pure _
    · exact Keeps.throw _
    · exact Keeps.throw _
  · dsimp only
    split
    · exact Keeps.pure _
    · refine (Dialogue.run_keeps _ askOnLink_silent _).bind fun sync => ?_
      split
      · exact Keeps.pure _
      · exact Keeps.pure _

theorem onConnection_silent (hquiet : world.Quiet) {program : LinkEnv F → EStateM String (PeerLink F) α}
    (h : ∀ env, Keeps PeerLink.Silent (program env)) (purpose : Purpose) (addr : String) (refused : String → String) :
    (onConnection world purpose addr refused program).2 = [] := by
  unfold onConnection
  split
  · rfl
  · next channel hconnect => exact (h _ _ ⟨hquiet _ _ _ hconnect, rfl⟩).2

variable (hquiet : world.Quiet)

include hquiet

theorem probeTip_silent (addr : String) : (probeTip paqus api world publicAddrs index addr).2 = [] :=
  onConnection_silent hquiet (fun _ => handshakePeer_silent.bind fun _ => Dialogue.run_keeps _ askOnLink_silent _) _ _ _

theorem fetchFrom_silent (addr : String) : (fetchFrom paqus api world publicAddrs range index attempt addr).2 = [] := by
  refine onConnection_silent hquiet (fun env => ?_) _ _ _
  have hexplained : ∀ {β : Type} (text : String) {program : EStateM String (PeerLink F) β},
      Keeps PeerLink.Silent program → Keeps PeerLink.Silent (explained text program) := by
    intro β text program h link hlink
    rw [explained, state_focus]
    exact h link hlink
  exact (hexplained _ handshakePeer_silent).bind fun _ =>
    (hexplained _ (Dialogue.run_keeps _ askOnLink_silent _)).bind fun _ => Keeps.pure _

theorem retryLoop_silent (peers : List String) {lastError : Option String} {failedPeers : List String} :
    (retryLoop paqus api world publicAddrs range index peers attempt lastError failedPeers []).2 = [] := by
  induction peers generalizing attempt lastError failedPeers with
  | nil => rfl
  | cons addr rest ih =>
    simp only [retryLoop, fetchFrom_silent hquiet, List.append_nil]
    split
    · rfl
    · rfl
    · exact ih

theorem fetchRangeWithRetries_silent (range : SyncRange) (index : Nat) (candidates : List (String × TipInfo)) :
    (fetchRangeWithRetries paqus api world publicAddrs range index candidates).2 = [] :=
  retryLoop_silent hquiet _

end Quiet

theorem onConnection_ok {α : Type} {purpose : Purpose} {addr : String} {refused : String → String}
    {program : LinkEnv F → EStateM String (PeerLink F) α} {a : α}
    (h : (onConnection world purpose addr refused program).1 = .ok a) :
    ∃ link next, program (world.env purpose) link = .ok a next := by
  unfold onConnection at h
  split at h
  · cases h
  · dsimp only at h
    exact ⟨_, _, ok_of_outcome (by rw [h]; rfl)⟩

theorem fetchFrom_gives {addr : String}
    (hcount : range.target + 1 = range.start + range.headers.length) (htarget : range.target < u64Max)
    (h : (fetchFrom paqus api world publicAddrs range index attempt addr).1 = .ok (some blocks)) :
    blocks.map Block.header = range.headers := by
  obtain ⟨link, next, h⟩ := onConnection_ok h
  obtain ⟨_, _, _, h⟩ := bind_eq_ok.mp h
  obtain ⟨sync, _, hfetch, h⟩ := bind_eq_ok.mp h
  obtain ⟨_, hrun, _⟩ := focus_eq_ok.mp hfetch
  cases sync with
  | none => cases h
  | some sync =>
    cases h
    exact fetchBlocks_gives hcount htarget hrun

variable {peers failedPeers : List String} {given : List Block}

theorem retryLoop_gives (hcount : range.target + 1 = range.start + range.headers.length)
    (htarget : range.target < u64Max) {lastError : Option String} {fetched : Fetched}
    (h : (retryLoop paqus api world publicAddrs range index peers attempt lastError failedPeers given).1 =
      .ok fetched) :
    fetched.start = range.start ∧ fetched.blocks.map Block.header = range.headers := by
  induction peers generalizing attempt lastError failedPeers given with
  | nil => cases h
  | cons addr rest ih =>
    simp only [retryLoop] at h
    split at h
    next blocks hblocks =>
      cases h
      exact ⟨rfl, fetchFrom_gives hcount htarget hblocks⟩
    next => cases h
    next => exact ih h

theorem joinWorkers_gives {candidates : List (String × TipInfo)} {next : Nat} {joined' : Joined}
    (hconsecutive : Consecutive next ranges) (hbound : ∀ range ∈ ranges, range.target < u64Max)
    (hbefore : ∀ entry ∈ joined.downloaded.toList, entry.1 < next)
    (h : joinWorkers paqus api world publicAddrs candidates ranges index joined = .ok joined') :
    (joined'.downloaded.toList.flatMap Prod.snd).map Block.header =
      (joined.downloaded.toList.flatMap Prod.snd).map Block.header ++ ranges.flatMap SyncRange.headers := by
  induction ranges generalizing next index joined with
  | nil =>
    cases h
    simp
  | cons range rest ih =>
    obtain ⟨hstart, hpos, hcount, hrest⟩ := hconsecutive
    simp only [joinWorkers] at h
    split at h
    next => cases h
    next fetched hfetched =>
      obtain ⟨hsame, hheaders⟩ := retryLoop_gives (by omega) (hbound range List.mem_cons_self) hfetched
      have hlast : (joined.add fetched).downloaded.toList =
          joined.downloaded.toList ++ [(fetched.start, fetched.blocks)] := by
        refine OrderedMap.toList_insert_last fun entry hentry => ?_
        rw [hsame, hstart]
        exact Nat.compare_eq_lt.mpr (hbefore entry hentry)
      have hbelow : ∀ entry ∈ (joined.add fetched).downloaded.toList, entry.1 < range.target + 1 := by
        intro entry hentry
        rw [hlast] at hentry
        rcases List.mem_append.mp hentry with hold | hnew
        · have hlt := hbefore entry hold
          omega
        · rw [List.mem_singleton.mp hnew]
          dsimp only
          omega
      rw [ih hrest (fun other hmem => hbound other (List.mem_cons_of_mem _ hmem)) hbelow h, hlast]
      simp only [List.flatMap_append, List.flatMap_cons, List.flatMap_nil, List.append_nil, List.map_append,
        hheaders, List.append_assoc]

theorem applyDownloaded_gives {expectedHeight applied count : Nat}
    {applying' : Applying F} (hroom : expectedHeight + blocks.length ≤ u64Max)
    (h : applyDownloaded paqus blocks expectedHeight applied applying = .ok count applying') :
    applying'.given = applying.given ++ blocks ∧ count = applied + blocks.length ∧
      blocks.map Block.height = List.range' expectedHeight blocks.length := by
  induction blocks generalizing expectedHeight applied applying with
  | nil =>
    cases h
    simp
  | cons block rest ih =>
    simp only [applyDownloaded] at h
    rw [List.length_cons] at hroom
    split at h
    next => cases h
    next hheight =>
      rw [recordGiven, modify_bind] at h
      obtain ⟨_, after, hfocus, h⟩ := bind_eq_ok.mp h
      obtain ⟨node, _, rfl⟩ := focus_eq_ok.mp hfocus
      rw [saturatingAdd_eq (by omega)] at h
      obtain ⟨hgiven, hcount, hheights⟩ := ih (by omega) h
      refine ⟨?_, ?_, ?_⟩
      · rw [hgiven]
        simp
      · rw [hcount, List.length_cons]
        omega
      · rw [List.map_cons, hheights, Decidable.not_not.mp hheight, List.length_cons, List.range'_succ]

theorem retryLoop_inside {lastError : Option String} {stop : SyncStop}
    (h : (retryLoop paqus api world publicAddrs range index peers attempt lastError failedPeers given).1 =
      .error stop) :
    stop ≠ .outside := by
  induction peers generalizing attempt lastError failedPeers given with
  | nil =>
    cases h
    exact nofun
  | cons addr rest ih =>
    simp only [retryLoop] at h
    split at h
    next => cases h
    next =>
      cases h
      exact nofun
    next => exact ih h

theorem joinWorkers_inside {candidates : List (String × TipInfo)} {stop : SyncStop}
    (h : joinWorkers paqus api world publicAddrs candidates ranges index joined = .error stop) :
    stop ≠ .outside := by
  induction ranges generalizing index joined with
  | nil => cases h
  | cons range rest ih =>
    simp only [joinWorkers] at h
    split at h
    next hfailed =>
      cases h
      exact retryLoop_inside hfailed
    next => exact ih h

theorem applyDownloaded_inside (blocks : List Block) (expectedHeight applied : Nat) :
    Errs (· ≠ SyncStop.outside) (applyDownloaded paqus blocks expectedHeight applied) := by
  induction blocks generalizing expectedHeight applied with
  | nil => exact Errs.pure _
  | cons block rest ih =>
    simp only [applyDownloaded]
    split
    · exact Errs.throw nofun
    · exact (Errs.modify _).bind fun _ => (Errs.focus (fun _ => nofun) _).bind fun _ => ih _ _

end Workers

theorem maxBy_mem {α : Type} {compare : α → α → Ordering} {items : List α} {best : α}
    (h : maxBy compare items = some best) : best ∈ items := by
  cases items with
  | nil => cases h
  | cons first rest =>
    have hfold : ∀ (rest : List α) (first : α),
        rest.foldl (fun best next => if compare best next = .gt then best else next) first ∈ first :: rest := by
      intro rest
      induction rest with
      | nil => exact fun first => List.mem_singleton_self first
      | cons next rest ih =>
        intro first
        rw [List.foldl_cons]
        split
        · rcases List.mem_cons.mp (ih first) with heq | hmem
          · rw [heq]
            exact List.mem_cons_self
          · exact List.mem_cons_of_mem _ (List.mem_cons_of_mem _ hmem)
        · exact List.mem_cons_of_mem _ (ih next)
    cases h
    exact hfold rest first

section Call

variable (paqus : Paqus F) (api : PeerApi) (compareChainTips : ChainTipOrder) (world : SyncWorld F)
  (publicAddrs peers : List String) (syncWindow : Nat)

/-- The leader, the ancestor it agrees to, the height up to which it is followed, and its headers above the
ancestor. -/
def Leads (ancestor : TipInfo) (target : Nat) (headers : List BlockHeader) : Prop :=
  ∃ leader remoteTip,
    maxBy (fun left right => compareTips compareChainTips left.2 right.2)
      (gatherCandidates paqus api compareChainTips world publicAddrs (localTip paqus world.atStart) peers) =
        some (leader, remoteTip) ∧
    (leaderHeaders paqus api world publicAddrs leader remoteTip syncWindow).1 = .ok (.chain ancestor target headers)

variable {paqus api compareChainTips world publicAddrs peers syncWindow} {ancestor : TipInfo} {target : Nat}
  {headers : List BlockHeader} {leader : String}

theorem leaderHeaders_gives {remoteTip : TipInfo}
    (h : (leaderHeaders paqus api world publicAddrs leader remoteTip syncWindow).1 =
      .ok (.chain ancestor target headers)) :
    ancestor.height < target ∧ target ≤ remoteTip.height ∧ target < u64Max ∧
      target ≤ ancestor.height + headers.length ∧ ∃ last, LinksTo paqus ancestor.hash headers last := by
  obtain ⟨link, next, hfollow⟩ := onConnection_ok h
  unfold followLeader at hfollow
  obtain ⟨_, _, _, hfollow⟩ := bind_eq_ok.mp hfollow
  obtain ⟨found, _, _, hfollow⟩ := bind_eq_ok.mp hfollow
  split at hfollow
  next => cases hfollow
  next hgt =>
    obtain ⟨sync, _, hfetch, hfollow⟩ := bind_eq_ok.mp hfollow
    cases sync with
    | none => cases hfollow
    | some sync =>
      cases hfollow
      have hnext : saturatingAdd ancestor.height 1 ≤ ancestor.height + 1 := saturatingAdd_le _ _
      obtain ⟨hlinks, hmax, hlength⟩ := fetchHeaders_gives (Nat.min_le_right _ _) hfetch
      exact ⟨by omega, Nat.min_le_left _ _, hmax, by omega, hlinks⟩

theorem plan_gives {remoteTip : TipInfo}
    {candidates : List (String × TipInfo)} (hmem : (leader, remoteTip) ∈ candidates)
    (habove : ancestor.height < target) (hremote : target ≤ remoteTip.height) (hmax : target < u64Max)
    (hlength : target ≤ ancestor.height + headers.length) :
    ∃ ranges, planParallelRanges compareChainTips (saturatingAdd ancestor.height 1) target headers candidates =
        some ranges ∧ Consecutive (ancestor.height + 1) ranges ∧
      ranges.flatMap SyncRange.headers = headers.take (target - ancestor.height) ∧
      ∀ range ∈ ranges, range.target ≤ target := by
  have hpeer : leader ∈ availablePeers compareChainTips target candidates := by
    refine List.mem_map.mpr ⟨(leader, remoteTip), ?_, rfl⟩
    rw [List.mem_insertionSort, List.mem_filter]
    exact ⟨hmem, decide_eq_true hremote⟩
  have hstart : saturatingAdd ancestor.height 1 = ancestor.height + 1 := saturatingAdd_eq (by omega)
  obtain ⟨ranges, hplan, hconsecutive, hflat, hbound⟩ :=
    @planLoop_gives target headers (headers.length + 1) _ (List.ne_nil_of_mem hpeer) hmax (ancestor.height + 1) 0
      [] (by omega) (by omega) (by omega)
  refine ⟨ranges, ?_, hconsecutive, ?_, hbound⟩
  · have hsome : (availablePeers compareChainTips target candidates).isEmpty = false :=
      List.isEmpty_eq_false_iff.mpr (List.ne_nil_of_mem hpeer)
    simp only [planParallelRanges, hsome, Bool.false_eq_true, if_false, hstart]
    exact hplan
  · have hcount : target + 1 - (ancestor.height + 1) = target - ancestor.height := by omega
    rw [hflat, List.drop_zero, hcount]

/-- The blocks of the leader's headers from the height above the ancestor to the target, linked to each other
and to the ancestor. -/
structure FollowsLeader (paqus : Paqus F) (ancestor : TipInfo) (target : Nat) (headers : List BlockHeader)
    (blocks : List Block) : Prop where
  headers : blocks.map Block.header = headers.take (target - ancestor.height)
  heights : blocks.map Block.height = List.range' (ancestor.height + 1) (target - ancestor.height)
  links : ∃ last, LinksTo paqus ancestor.hash (blocks.map Block.header) last

theorem downloaded_applied {candidates : List (String × TipInfo)} {count : Nat}
    {applying' : Applying F} (habove : ancestor.height < target) (hmax : target < u64Max)
    (hlength : target ≤ ancestor.height + headers.length)
    (hlinks : ∃ last, LinksTo paqus ancestor.hash headers last)
    (hconsecutive : Consecutive (ancestor.height + 1) ranges)
    (hflat : ranges.flatMap SyncRange.headers = headers.take (target - ancestor.height))
    (hbound : ∀ range ∈ ranges, range.target ≤ target)
    (hjoined : joinWorkers paqus api world publicAddrs candidates ranges 0 ⟨∅, ∅, ∅⟩ = .ok joined)
    (happly : applyDownloaded paqus (joined.downloaded.toList.flatMap Prod.snd)
      (saturatingAdd ancestor.height 1) 0 applying = .ok count applying') :
    ∃ blocks, applying'.given = applying.given ++ blocks ∧ count = target - ancestor.height ∧
      FollowsLeader paqus ancestor target headers blocks := by
  have hheaders := joinWorkers_gives hconsecutive (fun range hmem => Nat.lt_of_le_of_lt (hbound range hmem) hmax)
    (by simp) hjoined
  rw [hflat, show (∅ : BTreeMap Nat (List Block)).toList = [] by simp, List.flatMap_nil, List.map_nil,
    List.nil_append] at hheaders
  have hcount := congrArg List.length hheaders
  rw [List.length_map, List.length_take_of_le (by omega)] at hcount
  rw [saturatingAdd_eq (by omega)] at happly
  obtain ⟨hgiven, happlied, hheights⟩ := applyDownloaded_gives (by omega) happly
  obtain ⟨last, hlinks⟩ := hlinks
  refine ⟨_, hgiven, by omega, hheaders, ?_, ?_⟩
  · rw [hheights, hcount]
  · rw [hheaders]
    exact hlinks.take _

/-- Whatever the peers answer, a call that returns a report has applied and counted the blocks of the leader's
headers, behind the blocks that the peers pushed meanwhile, and it never plans a range outside the headers. -/
theorem syncFromPeersParallel_applies (node : Node F) :
    (∀ report after,
      syncFromPeersParallel paqus api compareChainTips world publicAddrs peers syncWindow ⟨node, []⟩ =
        .ok report after →
      ∃ pushed blocks, after.given = pushed ++ blocks ∧ (world.Quiet → pushed = []) ∧
        ((∃ ancestor target headers,
          Leads paqus api compareChainTips world publicAddrs peers syncWindow ancestor target headers ∧
          FollowsLeader paqus ancestor target headers blocks ∧ report.appliedBlocks = target - ancestor.height) ∨
        ((∀ ancestor target headers,
          ¬Leads paqus api compareChainTips world publicAddrs peers syncWindow ancestor target headers) ∧
          blocks = [] ∧ report.appliedBlocks = 0))) ∧
    ∀ after, syncFromPeersParallel paqus api compareChainTips world publicAddrs peers syncWindow ⟨node, []⟩ ≠
      .error .outside after := by
  have hprobes : world.Quiet →
      (peers.zipIdx.flatMap fun peer => (probeTip paqus api world publicAddrs peer.2 peer.1).2) = [] :=
    fun hquiet => List.flatMap_eq_nil_iff.mpr fun peer _ => probeTip_silent hquiet _
  unfold syncFromPeersParallel
  dsimp only
  rw [recordGiven, modify_bind]
  dsimp only
  generalize (peers.zipIdx.flatMap fun peer => (probeTip paqus api world publicAddrs peer.2 peer.1).2) = probes
    at hprobes
  cases hbest : maxBy (fun left right => compareTips compareChainTips left.2 right.2)
      (gatherCandidates paqus api compareChainTips world publicAddrs (localTip paqus world.atStart) peers) with
  | none =>
    refine ⟨fun report after hcall => ?_, fun after hcall => by cases hcall⟩
    cases hcall
    refine ⟨probes, [], (List.append_nil _).symm, hprobes, .inr ⟨?_, rfl, rfl⟩⟩
    rintro ancestor target headers ⟨leader, remoteTip, hleader, _⟩
    rw [hbest] at hleader
    cases hleader
  | some best =>
    obtain ⟨leader, remoteTip⟩ := best
    have hsilent : world.Quiet → (leaderHeaders paqus api world publicAddrs leader remoteTip syncWindow).2 = [] :=
      fun hquiet => onConnection_silent hquiet (fun _ => followLeader_silent _ _) _ _ _
    dsimp only
    rw [recordGiven, modify_bind]
    dsimp only
    cases hlead : (leaderHeaders paqus api world publicAddrs leader remoteTip syncWindow).1 with
    | error error => exact ⟨fun report after hcall => (by cases hcall), fun after hcall => (by cases hcall)⟩
    | ok lead =>
      rw [liftExcept_ok, pure_bind]
      cases lead with
      | endless => exact ⟨fun report after hcall => (by cases hcall), fun after hcall => (by cases hcall)⟩
      | idle =>
        refine ⟨fun report after hcall => ?_, fun after hcall => by cases hcall⟩
        cases hcall
        refine ⟨_, [], (List.append_nil _).symm, fun hquiet => ?_, .inr ⟨?_, rfl, rfl⟩⟩
        · rw [hprobes hquiet, hsilent hquiet, List.append_nil, List.append_nil]
        · rintro ancestor target headers ⟨_, _, hleader, hchain⟩
          rw [hbest] at hleader
          cases hleader
          rw [hlead] at hchain
          cases hchain
      | chain ancestor target headers =>
        obtain ⟨habove, hremote, hmax, hlength, hlinks⟩ := leaderHeaders_gives hlead
        obtain ⟨ranges, hplan, hconsecutive, hflat, hbound⟩ :=
          @plan_gives compareChainTips _ _ headers _ _ _ (maxBy_mem hbest) habove hremote hmax hlength
        have hsome : ranges.isEmpty = false := by
          refine List.isEmpty_eq_false_iff.mpr fun hnone => ?_
          have hcount := congrArg List.length hflat
          rw [hnone, List.length_take_of_le (by omega)] at hcount
          simp only [List.flatMap_nil, List.length_nil] at hcount
          omega
        dsimp only
        rw [hplan, orThrow_some, pure_bind, hsome, if_neg Bool.false_ne_true, recordGiven, modify_bind]
        refine ⟨fun report after hcall => ?_, fun after hcall => ?_⟩
        · obtain ⟨joined, hjoin, hcall⟩ := liftExcept_bind_eq_ok.mp hcall
          obtain ⟨count, last, happly, hcall⟩ := bind_eq_ok.mp hcall
          cases hcall
          obtain ⟨blocks, hgiven, hcount, hfollows⟩ :=
            downloaded_applied habove hmax hlength hlinks hconsecutive hflat hbound hjoin happly
          refine ⟨_, blocks, hgiven, fun hquiet => ?_,
            .inl ⟨ancestor, target, headers, ⟨leader, remoteTip, hbest, hlead⟩, hfollows, hcount⟩⟩
          exact List.append_eq_nil_iff.mpr ⟨List.append_eq_nil_iff.mpr ⟨hprobes hquiet, hsilent hquiet⟩,
            List.flatMap_eq_nil_iff.mpr fun _ _ => fetchRangeWithRetries_silent hquiet _ _ _⟩
        · cases hjoin : joinWorkers paqus api world publicAddrs (gatherCandidates paqus api compareChainTips world
              publicAddrs (localTip paqus world.atStart) peers) ranges 0 ⟨∅, ∅, ∅⟩ with
          | error stop =>
            rw [hjoin] at hcall
            cases hcall
            exact joinWorkers_inside hjoin rfl
          | ok joined =>
            rw [hjoin, liftExcept_ok, pure_bind] at hcall
            exact (applyDownloaded_inside _ _ _).bind (fun _ => Errs.pure _) _ _ _ hcall rfl

end Call

namespace Reference

def ahead : List Block := [(Tip.genesis.next 111 10 []).block, ((Tip.genesis.next 111 10 []).next 112 10 []).block]

/-- Each answer carries the id of the request it is for, counted from one on each connection. -/
def announced : Purpose → String → List PeerMessage
  | .probe _, _ => [.chain (.tip ⟨2, digest (ahead.getLastD genesisBlock), 21⟩)]
  | .lead, _ => [.chain (.commonAncestor (some ⟨0, digest genesisBlock, 1⟩)),
      .chain (.blockHeaders (ahead.map Block.header))]
  | .fetch _ _, addr => [.chain (.blocks (if addr = "liar" then ahead.reverse else ahead))]

def announcing (own : Node ForkTree) (pushed : Purpose → List Receipt) : SyncWorld ForkTree where
  connect purpose addr :=
    .ok (pushed purpose ++ (.verAck (VersionInfo.ofParams peerApi.params none) :: announced purpose addr).zipIdx.map
      fun answer => receiptOf 0 (.ofNat (answer.2 + 1)) answer.1)
  started _ := 0
  node _ := own
  env _ := quietEnv
  atStart := own

theorem announcing_quiet {own : Node ForkTree} {pushed : Purpose → List Receipt}
    (hpushed : ∀ purpose, QuietChannel (pushed purpose)) : (announcing own pushed).Quiet := by
  rintro purpose addr channel hconnect envelope hmem hzero
  cases hconnect
  rcases List.mem_append.mp hmem with hfirst | hanswer
  · exact hpushed purpose envelope hfirst hzero
  · obtain ⟨answer, hindex, heq⟩ := List.mem_map.mp hanswer
    have hcount : (announced purpose addr).length ≤ 2 := by cases purpose <;> simp [announced]
    obtain ⟨_, hlt, _⟩ := List.mem_zipIdx hindex
    cases heq
    have hid : (answer.2 + 1) % 2 ^ 64 = 0 := congrArg UInt64.toNat hzero
    rw [List.length_cons] at hlt
    omega

def byWork : ChainTipOrder := fun work _ work' _ => compare work work'

/-- Each connection begins with a ping of the peer. -/
def pinged : Purpose → List Receipt := fun _ => [receiptOf 9 0 (.chain (.ping 4))]

theorem synced_past_liar :
    ∃ own report after, sampleRun 5 [] = .ok own ∧ (announcing own pinged).Quiet ∧
      syncFromPeersParallel (protocol 5) peerApi byWork (announcing own pinged) [] ["liar", "peer"] 0 ⟨own, []⟩ =
        .ok report after ∧
      FollowsLeader (protocol 5) ⟨0, digest genesisBlock, 1⟩ 2 (ahead.map Block.header) after.given ∧
      report.appliedBlocks = 2 := by
  obtain ⟨own, hown, hok, hbest, hlead⟩ : ∃ own, sampleRun 5 [] = .ok own ∧
      (outcome (syncFromPeersParallel (protocol 5) peerApi byWork (announcing own pinged) [] ["liar", "peer"] 0
        ⟨own, []⟩)).isOk = true ∧
      maxBy (fun left right => compareTips byWork left.2 right.2) (gatherCandidates (protocol 5) peerApi byWork
        (announcing own pinged) [] (localTip (protocol 5) own) ["liar", "peer"]) =
          some ("peer", ⟨2, digest (ahead.getLastD genesisBlock), 21⟩) ∧
      (leaderHeaders (protocol 5) peerApi (announcing own pinged) [] "peer"
        ⟨2, digest (ahead.getLastD genesisBlock), 21⟩ 0).1 =
          .ok (.chain ⟨0, digest genesisBlock, 1⟩ 2 (ahead.map Block.header)) := exists_ok_and (by decide +kernel)
  have hquiet : (announcing own pinged).Quiet := announcing_quiet fun purpose envelope hmem _ => by
    cases List.mem_singleton.mp hmem
    rfl
  obtain ⟨report, hcall⟩ := ok_of_isOk hok
  obtain ⟨pushed, blocks, hgiven, hnone, hcase⟩ := (syncFromPeersParallel_applies own).1 _ _ hcall
  rw [hnone hquiet] at hgiven
  rcases hcase with ⟨_, _, _, ⟨_, _, hleader, hchain⟩, hfollows, hcount⟩ | ⟨habsent, _⟩
  · cases hleader.symm.trans hbest
    cases hchain.symm.trans hlead
    exact ⟨own, report, _, hown, hquiet, hcall, hgiven ▸ hfollows, hcount⟩
  · exact absurd ⟨_, _, hbest, hlead⟩ (habsent _ _ _)

def stray : Block := (Tip.genesis.next 113 1 []).block

/-- Before the blocks it is asked for the peer sends one of another branch. -/
def straying : Purpose → List Receipt
  | .fetch _ _ => [receiptOf 9 0 (.chain (.block stray))]
  | _ => []

theorem pushed_block_applied :
    ∃ own forked report after, sampleRun 5 [] = .ok own ∧ sampleRun 5 [.applyBlock stray] = .ok forked ∧
      syncFromPeersParallel (protocol 5) peerApi byWork (announcing own straying) [] ["peer"] 0 ⟨forked, []⟩ =
        .ok report after ∧
      report.appliedBlocks = 2 ∧ after.given = stray :: ahead ∧
      ∀ ancestor target headers, ¬FollowsLeader (protocol 5) ancestor target headers after.given := by
  obtain ⟨own, hown, hrest⟩ : ∃ own, sampleRun 5 [] = .ok own ∧
      (sampleRun 5 [.applyBlock stray]).toOption.any (fun forked =>
        let call := syncFromPeersParallel (protocol 5) peerApi byWork (announcing own straying) [] ["peer"] 0
          ⟨forked, []⟩
        decide ((outcome call).toOption.map ParallelSyncReport.appliedBlocks = some 2 ∧
          (state call).given = stray :: ahead)) = true := exists_ok_and (by decide +kernel)
  obtain ⟨forked, hforked, hcount, hgiven⟩ := exists_ok_and hrest
  obtain ⟨report, hreport, hcount⟩ := Option.map_eq_some_iff.mp hcount
  refine ⟨own, forked, report, _, hown, hforked, ok_of_outcome hreport, hcount, hgiven, ?_⟩
  intro ancestor target headers hfollows
  have hheights := hfollows.heights
  rw [hgiven] at hheights
  have hnodup : ((stray :: ahead).map Block.height).Nodup := hheights ▸ List.nodup_range'
  exact absurd hnodup (by decide +kernel)

end Reference

end PaqusNetwork
