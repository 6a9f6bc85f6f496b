import PaqusNetwork.Network.Pushed

namespace PaqusNetwork

open Effect Numeric Dialogue

def minBlocksPerSync : Nat := 32

def maxBlocksPerSync : Nat := 256

/-- What a connection is made for: the tip of a candidate, the headers of the leader, or one attempt to
download a range. -/
inductive Purpose
  | probe (index : Nat)
  | lead
  | fetch (range attempt : Nat)
  deriving DecidableEq, Repr

/-- What one call meets. Nothing is assumed of the peers, and since each attempt of each worker has its own
connection, nothing of the order in which the workers proceed. -/
structure SyncWorld (F : Type) where
  connect : Purpose → String → Except String (List Receipt)
  started : Purpose → Nat
  node : Purpose → Node F
  env : Purpose → LinkEnv F
  atStart : Node F

/-- Why the call does not return a report: an error, a loop that never ends, or a range outside the header
list. -/
inductive SyncStop
  | failed (text : String)
  | endless
  | outside
  deriving DecidableEq, Repr

structure SyncRange where
  peer : String
  start : Nat
  target : Nat
  headers : List BlockHeader
  deriving DecidableEq, Repr

structure ParallelSyncReport where
  remoteTip : Nat
  appliedBlocks : Nat
  usedPeers : Nat
  usedPeerAddrs : List String
  failedPeerAddrs : List String
  deriving DecidableEq, Repr

def maxBy {α : Type} (compare : α → α → Ordering) : List α → Option α
  | [] => none
  | first :: rest => some (rest.foldl (fun best next => if compare best next = .gt then best else next) first)

/-- `compare_chain_tips` of the protocol crate. -/
abbrev ChainTipOrder := Nat → BlockHash → Nat → BlockHash → Ordering

section Tips

variable (compareChainTips : ChainTipOrder)

def compareTips (left right : TipInfo) : Ordering := compareChainTips left.work left.hash right.work right.hash

def isRemoteTipBetter (own remote : TipInfo) : Bool := compareTips compareChainTips remote own == .gt

def availablePeers (target : Nat) (candidates : List (String × TipInfo)) : List String :=
  ((candidates.filter fun candidate => target ≤ candidate.2.height).insertionSort
    fun left right => compareTips compareChainTips right.2 left.2 ≠ .gt).map Prod.fst

/-- A slice of a list; a slice that ends outside the list panics. -/
def slice? {α : Type} (items : List α) (start count : Nat) : Option (List α) :=
  if start + count ≤ items.length then some ((items.drop start).take count) else none

/-- The loop of `plan_parallel_ranges`: `none` when an index is outside of its list. A round takes at least
one header. -/
def planLoop (available : List String) (headers : List BlockHeader) (target : Nat) :
    Nat → Nat → Nat → List SyncRange → Option (List SyncRange)
  | 0, _, _, _ => none
  | fuel + 1, nextHeight, headerIndex, ranges =>
    if nextHeight ≤ target then do
      let remaining := saturatingAdd (target - nextHeight) 1
      let count := min remaining maxBlocksPerBatch
      let peer ← available[ranges.length % available.length]?
      let slice ← slice? headers headerIndex count
      let range := ⟨peer, nextHeight, saturatingAdd nextHeight count - 1, slice⟩
      planLoop available headers target fuel (saturatingAdd nextHeight count) (headerIndex + count) (ranges ++ [range])
    else some ranges

def planParallelRanges (start target : Nat) (headers : List BlockHeader)
    (candidates : List (String × TipInfo)) : Option (List SyncRange) :=
  let available := availablePeers compareChainTips target candidates
  if available.isEmpty then some []
  else planLoop available headers target (headers.length + 1) start 0 []

end Tips

variable {F : Type} (paqus : Paqus F) (api : PeerApi) (compareChainTips : ChainTipOrder)
  (world : SyncWorld F) (publicAddrs : List String)

section Connection

variable (env : LinkEnv F)

def readNode {α : Type} (read : Node F → α) : EStateM String (PeerLink F) α :=
  textual (underLock env .failed (fun _ => []) (do
    let node ← get
    return read node))

def handshakePeer : EStateM String (PeerLink F) Unit := do
  modify fun link => { link with attached := true }
  let tip ← readNode env (localTip paqus)
  match ← askOnLink paqus api env (.version (VersionInfo.ofParams api.params tip)) with
  | .verAck remote =>
    liftExcept (fun reason => "peer returned incompatible version: " ++ reason.debug)
      (remote.validateCompatibility api.params)
    runIf (!publicAddrs.isEmpty) (textual (sendOnLink api env (.peers publicAddrs)))
  | .chain (.reject reason message) =>
    throw ("peer rejected handshake: " ++ reason.debug ++ ": " ++ message)
  | _ => throw "peer returned unexpected handshake response"

def requestCommonAncestor : EStateM String (PeerLink F) TipInfo := do
  let locator ← liftExcept paqus.texts.codec (← readNode env (blockLocator paqus))
  match ← askOnLink paqus api env (.chain (.getCommonAncestor locator)) with
  | .chain (.commonAncestor (some ancestor)) => return ancestor
  | .chain (.commonAncestor none) => throw "peer did not find a common ancestor from local locator"
  | _ => throw "peer returned unexpected common ancestor response"

end Connection

/-- A connection for a purpose: what the program on it gives, and the blocks given to `apply_block` meanwhile. -/
def onConnection {α : Type} (purpose : Purpose) (addr : String) (refused : String → String)
    (program : LinkEnv F → EStateM String (PeerLink F) α) : Except String α × List Block :=
  match world.connect purpose addr with
  | .error error => (.error (refused error), [])
  | .ok channel =>
    let result := program (world.env purpose) (.connect (world.node purpose) (world.started purpose) channel)
    (outcome result, (state result).given)

def probeTip (index : Nat) (addr : String) : Except String TipInfo × List Block :=
  onConnection world (.probe index) addr id fun env => do
    handshakePeer paqus api publicAddrs env
    requestTip.run (askOnLink paqus api env)

def gatherCandidates (own : Option TipInfo) (peers : List String) : List (String × TipInfo) :=
  peers.zipIdx.filterMap fun peer =>
    match (probeTip paqus api world publicAddrs peer.2 peer.1).1 with
    | .ok tip =>
      if own.all (isRemoteTipBetter compareChainTips · tip) then some (peer.1, tip) else none
    | .error _ => none

/-- What the leader gives: nothing new, headers without an end, or the headers above the ancestor. -/
inductive Lead
  | idle
  | endless
  | chain (ancestor : TipInfo) (target : Nat) (headers : List BlockHeader)
  deriving DecidableEq, Repr

def syncTarget (remoteTip ancestor : TipInfo) (syncWindow : Nat) : Nat :=
  min remoteTip.height (saturatingAdd ancestor.height (max minBlocksPerSync (min syncWindow maxBlocksPerSync)))

def followLeader (remoteTip : TipInfo) (syncWindow : Nat) (env : LinkEnv F) : EStateM String (PeerLink F) Lead := do
  handshakePeer paqus api publicAddrs env
  let ancestor ← requestCommonAncestor paqus api env
  let target := syncTarget remoteTip ancestor syncWindow
  if target ≤ ancestor.height then return .idle
  match ← (fetchHeaders paqus (saturatingAdd ancestor.height 1) target ancestor.hash).run (askOnLink paqus api env) with
  | none => return .endless
  | some sync => return .chain ancestor target sync.headers

def leaderHeaders (leader : String) (remoteTip : TipInfo) (syncWindow : Nat) : Except String Lead × List Block :=
  onConnection world .lead leader id (followLeader paqus api publicAddrs remoteTip syncWindow)

def explained {α σ : Type} (text : String) (program : EStateM String σ α) : EStateM String σ α :=
  focus id (fun link _ => link) (text ++ ": " ++ ·) program

/-- One attempt of `fetch_range_with_retries`; `none` when the loop of the download does not end. -/
def fetchFrom (range : SyncRange) (index attempt : Nat) (addr : String) :
    Except String (Option (List Block)) × List Block :=
  onConnection world (.fetch index attempt) addr (s!"connect {addr} failed: " ++ ·) fun env => do
    explained s!"handshake {addr} failed" (handshakePeer paqus api publicAddrs env)
    let start := range.start
    let target := range.target
    let sync ← explained s!"download {start}..{target} from {addr} failed"
      ((fetchBlocks range.start range.target range.headers).run (askOnLink paqus api env))
    return sync.map BlockSync.downloaded

structure Fetched where
  start : Nat
  peer : String
  blocks : List Block
  failedPeers : List String
  deriving DecidableEq, Repr

def retryLoop (range : SyncRange) (index : Nat) :
    List String → Nat → Option String → List String → List Block → Except SyncStop Fetched × List Block
  | [], _, lastError, _, given =>
    let start := range.start
    let target := range.target
    (.error (.failed (lastError.getD s!"no peer could download range {start}..{target}")), given)
  | addr :: rest, attempt, _, failedPeers, given =>
    let fetched := fetchFrom paqus api world publicAddrs range index attempt addr
    match fetched.1 with
    | .ok (some blocks) => (.ok ⟨range.start, addr, blocks, failedPeers⟩, given ++ fetched.2)
    | .ok none => (.error .endless, given ++ fetched.2)
    | .error error => retryLoop range index rest (attempt + 1) (some error) (failedPeers ++ [addr]) (given ++ fetched.2)

def fetchRangeWithRetries (range : SyncRange) (index : Nat) (candidates : List (String × TipInfo)) :
    Except SyncStop Fetched × List Block :=
  let others := candidates.filter fun candidate =>
    candidate.1 ≠ range.peer ∧ range.target ≤ candidate.2.height
  retryLoop paqus api world publicAddrs range index (range.peer :: others.map Prod.fst) 0 none [] []

/-- The maps that the results of the workers are merged into. -/
structure Joined where
  downloaded : BTreeMap Nat (List Block)
  usedPeers : BTreeMap String Unit
  failedPeers : BTreeMap String Unit

def Joined.add (joined : Joined) (fetched : Fetched) : Joined where
  downloaded := joined.downloaded.insert fetched.start fetched.blocks
  usedPeers := joined.usedPeers.insert fetched.peer ()
  failedPeers := fetched.failedPeers.foldl (fun peers peer => peers.insert peer ()) joined.failedPeers

def joinWorkers (candidates : List (String × TipInfo)) : List SyncRange → Nat → Joined → Except SyncStop Joined
  | [], _, joined => .ok joined
  | range :: rest, index, joined =>
    match (fetchRangeWithRetries paqus api world publicAddrs range index candidates).1 with
    | .error stop => .error stop
    | .ok fetched => joinWorkers candidates rest (index + 1) (joined.add fetched)

/-- The node under the lock at the end of the call; `given` is a history variable, the blocks given to
`apply_block`. Those of workers that run at the same time stand in the order of the workers. -/
structure Applying (F : Type) where
  node : Node F
  given : List Block

def recordGiven (blocks : List Block) : EStateM SyncStop (Applying F) Unit :=
  modify fun applying => { applying with given := applying.given ++ blocks }

def applyDownloaded : List Block → Nat → Nat → EStateM SyncStop (Applying F) Nat
  | [], _, applied => return applied
  | block :: rest, expectedHeight, applied =>
    let height := block.height
    if height ≠ expectedHeight then
      throw (.failed s!"parallel sync downloaded height {height} while applying height {expectedHeight}")
    else do
      recordGiven [block]
      focus Applying.node (fun node applying => { applying with node })
        (fun error =>
          let text := error.display paqus.texts
          SyncStop.failed s!"failed to apply parallel synced block {height}: {text}")
        (applyBlock paqus block)
      applyDownloaded rest (saturatingAdd expectedHeight 1) (applied + 1)

def syncFromPeersParallel (peers : List String) (syncWindow : Nat) :
    EStateM SyncStop (Applying F) ParallelSyncReport := do
  let own := localTip paqus world.atStart
  recordGiven (peers.zipIdx.flatMap fun peer => (probeTip paqus api world publicAddrs peer.2 peer.1).2)
  let candidates := gatherCandidates paqus api compareChainTips world publicAddrs own peers
  match maxBy (fun left right => compareTips compareChainTips left.2 right.2) candidates with
  | none => return ⟨(own.map TipInfo.height).getD 0, 0, 0, [], []⟩
  | some (leader, remoteTip) =>
    let lead := leaderHeaders paqus api world publicAddrs leader remoteTip syncWindow
    recordGiven lead.2
    match ← liftExcept SyncStop.failed lead.1 with
    | .idle => return ⟨remoteTip.height, 0, 0, [], []⟩
    | .endless => throw .endless
    | .chain ancestor target headers =>
      let start := saturatingAdd ancestor.height 1
      let ranges ← orThrow .outside (planParallelRanges compareChainTips start target headers candidates)
      if ranges.isEmpty then return ⟨remoteTip.height, 0, 0, [], []⟩
      recordGiven (ranges.zipIdx.flatMap fun range =>
        (fetchRangeWithRetries paqus api world publicAddrs range.1 range.2 candidates).2)
      let joined ← liftExcept id (joinWorkers paqus api world publicAddrs candidates ranges 0 ⟨∅, ∅, ∅⟩)
      let usedPeerAddrs := joined.usedPeers.keys
      let failedPeers := usedPeerAddrs.foldl (fun peers peer => peers.erase peer) joined.failedPeers
      let applied ← applyDownloaded paqus (joined.downloaded.toList.flatMap Prod.snd) start 0
      return ⟨remoteTip.height, applied, joined.usedPeers.size, usedPeerAddrs, failedPeers.keys⟩

variable {F : Type} {start target : Nat} {paqus : Paqus F} {headers : List BlockHeader} {sync : HeaderSync}
  {anchorHash : BlockHash} {σ : Type} {first last : BlockHash} {next : HeaderSync} {reply : PeerMessage}
  {fuel : Nat}

/-- The headers form a chain: the first one names the first hash, and the last one has the last hash. -/
def LinksTo (paqus : Paqus F) : BlockHash → List BlockHeader → BlockHash → Prop
  | first, [], last => first = last
  | first, header :: rest, last =>
    header.previousHash = first ∧ ∃ hash, paqus.codec.headerHash header = .ok hash ∧ LinksTo paqus hash rest last

theorem LinksTo.append_iff {left right : List BlockHeader} :
    LinksTo paqus first (left ++ right) last ↔
      ∃ middle, LinksTo paqus first left middle ∧ LinksTo paqus middle right last := by
  induction left generalizing first with
  | nil => simp [LinksTo]
  | cons header rest ih =>
    simp only [List.cons_append, LinksTo, ih]
    constructor
    · rintro ⟨hprevious, hash, hhash, middle, hleft, hright⟩
      exact ⟨middle, ⟨hprevious, hash, hhash, hleft⟩, hright⟩
    · rintro ⟨middle, ⟨hprevious, hash, hhash, hleft⟩, hright⟩
      exact ⟨hprevious, hash, hhash, middle, hleft, hright⟩

theorem LinksTo.take (h : LinksTo paqus first headers last) (count : Nat) :
    ∃ middle, LinksTo paqus first (headers.take count) middle := by
  rw [← List.take_append_drop count headers] at h
  obtain ⟨middle, hleft, _⟩ := LinksTo.append_iff.mp h
  exact ⟨middle, hleft⟩

/-- What holds of the loop of `request_headers`, whatever the peer answers. -/
structure HeaderSync.Above (paqus : Paqus F) (start : Nat) (anchorHash : BlockHash) (sync : HeaderSync) :
    Prop where
  links : LinksTo paqus anchorHash sync.headers sync.previousHash
  height : sync.nextHeight = saturatingAdd start sync.headers.length

theorem HeaderSync.Above.acceptBatch {batch : List BlockHeader} (h : sync.Above paqus start anchorHash)
    (haccept : sync.acceptBatch paqus batch = .ok next) : next.Above paqus start anchorHash := by
  induction batch generalizing sync with
  | nil =>
    cases haccept
    exact h
  | cons header rest ih =>
    simp only [HeaderSync.acceptBatch] at haccept
    split at haccept
    next => cases haccept
    next =>
      split at haccept
      next => cases haccept
      next hprevious =>
        split at haccept
        next => cases haccept
        next hash hhash =>
          refine ih ⟨?_, ?_⟩ haccept
          · exact LinksTo.append_iff.mpr ⟨_, h.links, Decidable.not_not.mp hprevious, hash, hhash, rfl⟩
          · have hheight := h.height
            simp only [saturatingAdd, List.length_append, List.length_singleton] at hheight ⊢
            omega

theorem HeaderSync.Above.accept (h : sync.Above paqus start anchorHash)
    (haccept : sync.accept paqus reply = .ok next) : next.Above paqus start anchorHash := by
  unfold HeaderSync.accept at haccept
  split at haccept
  next batch =>
    split at haccept
    next => cases haccept
    next => exact h.acceptBatch (mapError_eq_ok.mp haccept)
  next => cases haccept

variable {request : PeerMessage → EStateM String σ PeerMessage} {s s' : σ}

theorem fetchRange_gives {S : Type} {nextHeight : S → Nat} {question : Nat → Nat → PeerMessage}
    {accept : S → PeerMessage → Except String S}
    {Inv : S → Prop} (hkeeps : ∀ {sync reply next}, Inv sync → accept sync reply = .ok next → Inv next)
    {sync last : S} (hsync : Inv sync)
    (h : (fetchRange nextHeight question accept target fuel sync).run request s = .ok (some last) s') :
    Inv last ∧ target < nextHeight last := by
  induction fuel generalizing sync s with
  | zero =>
    unfold fetchRange at h
    split at h
    next => cases h
    next hgt =>
      cases h
      exact ⟨hsync, by omega⟩
  | succ fuel ih =>
    unfold fetchRange at h
    split at h
    next =>
      dsimp only at h
      rw [run_bind, run_ask] at h
      obtain ⟨reply, t, _, h⟩ := bind_eq_ok.mp h
      cases haccept : accept sync reply with
      | error error => rw [haccept] at h; cases h
      | ok next =>
        rw [haccept] at h
        exact ih (hkeeps hsync haccept) h
    next hgt =>
      cases h
      exact ⟨hsync, by omega⟩

theorem fetchHeaders_gives (hstart : start ≤ u64Max)
    (h : (fetchHeaders paqus start target anchorHash).run request s = .ok (some sync) s') :
    (∃ last, LinksTo paqus anchorHash sync.headers last) ∧ target < u64Max ∧
      target < start + sync.headers.length := by
  have hbegin : (HeaderSync.mk start anchorHash []).Above paqus start anchorHash := by
    refine ⟨rfl, ?_⟩
    simp only [saturatingAdd, List.length_nil]
    omega
  obtain ⟨habove, htarget⟩ := fetchRange_gives (fun hsync => hsync.accept) hbegin h
  have hheight := habove.height
  simp only [saturatingAdd] at hheight
  exact ⟨⟨_, habove.links⟩, by omega, by omega⟩

/-- What holds of the loop of `fetch_blocks`, whatever the peer answers. -/
structure BlockSync.Matches (start : Nat) (headers : List BlockHeader) (sync : BlockSync) : Prop where
  headers : sync.downloaded.map Block.header ++ sync.expectedHeaders = headers
  height : sync.nextHeight = saturatingAdd start sync.downloaded.length

theorem BlockSync.Matches.acceptBlocks {sync next : BlockSync}
    {blocks : List Block} (h : sync.Matches start headers) (haccept : sync.acceptBlocks blocks = .ok next) :
    next.Matches start headers := by
  induction blocks generalizing sync with
  | nil =>
    cases haccept
    exact h
  | cons block rest ih =>
    simp only [BlockSync.acceptBlocks] at haccept
    split at haccept
    next => cases haccept
    next =>
      split at haccept
      next => cases haccept
      next expectedHeader others hexpected =>
        split at haccept
        next => cases haccept
        next hheader =>
          refine ih ⟨?_, ?_⟩ haccept
          · have hsame : block.header = expectedHeader := Decidable.not_not.mp hheader
            rw [← h.headers, hexpected, ← hsame]
            simp
          · have hheight := h.height
            simp only [saturatingAdd, List.length_append, List.length_singleton] at hheight ⊢
            omega

theorem BlockSync.Matches.accept {sync next : BlockSync}
    (h : sync.Matches start headers) (haccept : sync.accept reply = .ok next) :
    next.Matches start headers := by
  unfold BlockSync.accept at haccept
  split at haccept
  next blocks =>
    split at haccept
    next => cases haccept
    next => exact h.acceptBlocks haccept
  next => cases haccept

theorem fetchBlocks_gives {sync : BlockSync} (hcount : target + 1 = start + headers.length)
    (htarget : target < u64Max) (h : (fetchBlocks start target headers).run request s = .ok (some sync) s') :
    sync.downloaded.map Block.header = headers := by
  have hbegin : (BlockSync.mk start headers []).Matches start headers := by
    by_cases hstart : start ≤ u64Max
    · refine ⟨rfl, ?_⟩
      simp only [saturatingAdd, List.length_nil]
      omega
    · omega
  obtain ⟨hmatches, hpast⟩ := fetchRange_gives (fun hsync => hsync.accept) hbegin h
  have hheight := hmatches.height
  have hlength := congrArg List.length hmatches.headers
  simp only [List.length_append, List.length_map] at hlength
  simp only [saturatingAdd] at hheight
  have hnothing : sync.expectedHeaders = [] := List.length_eq_zero_iff.mp (by omega)
  have hall := hmatches.headers
  rwa [hnothing, List.append_nil] at hall

/-- The ranges follow each other from a height on, with a header for each height. -/
def Consecutive : Nat → List SyncRange → Prop
  | _, [] => True
  | next, range :: rest =>
    range.start = next ∧ 0 < range.headers.length ∧ range.target + 1 = next + range.headers.length ∧
      Consecutive (range.target + 1) rest

theorem planLoop_gives {available : List String} (havailable : available ≠ []) (htarget : target < u64Max)
    {nextHeight headerIndex : Nat}
    {ranges : List SyncRange} (hnext : nextHeight ≤ target + 1)
    (hheaders : headerIndex + (target + 1 - nextHeight) ≤ headers.length)
    (hfuel : headers.length < headerIndex + fuel) :
    ∃ added, planLoop available headers target fuel nextHeight headerIndex ranges = some (ranges ++ added) ∧
      Consecutive nextHeight added ∧
      added.flatMap SyncRange.headers = (headers.drop headerIndex).take (target + 1 - nextHeight) ∧
      ∀ range ∈ added, range.target ≤ target := by
  induction fuel generalizing nextHeight headerIndex ranges with
  | zero => omega
  | succ fuel ih =>
    by_cases hle : nextHeight ≤ target
    · have hlength : 0 < available.length := List.length_pos_iff.mpr havailable
      have hpeer : ∃ peer, available[ranges.length % available.length]? = some peer :=
        ⟨_, List.getElem?_eq_getElem (Nat.mod_lt _ hlength)⟩
      obtain ⟨peer, hpeer⟩ := hpeer
      have hcount : ∃ count, min (saturatingAdd (target - nextHeight) 1) maxBlocksPerBatch = count ∧ 0 < count ∧
          count ≤ target + 1 - nextHeight := by
        have hrest : saturatingAdd (target - nextHeight) 1 = target - nextHeight + 1 := saturatingAdd_eq (by omega)
        have hbatch : 0 < maxBlocksPerBatch := by decide
        rw [hrest]
        exact ⟨_, rfl, by omega, by omega⟩
      obtain ⟨count, hcount, hpos, hroom⟩ := hcount
      have hadd : saturatingAdd nextHeight count = nextHeight + count := saturatingAdd_eq (by omega)
      have hslice : slice? headers headerIndex count = some ((headers.drop headerIndex).take count) := by
        rw [slice?, if_pos (by omega)]
      let range : SyncRange := ⟨peer, nextHeight, nextHeight + count - 1, (headers.drop headerIndex).take count⟩
      have htaken : range.headers.length = count := by
        simp only [range, List.length_take, List.length_drop]
        omega
      obtain ⟨added, hadded, hconsecutive, hflat, hbound⟩ :=
        @ih (nextHeight + count) (headerIndex + count) (ranges ++ [range]) (by omega) (by omega) (by omega)
      refine ⟨range :: added, ?_, ⟨rfl, by omega, ?_, ?_⟩, ?_, ?_⟩
      · simp only [planLoop, if_pos hle, hcount, hpeer, hslice, hadd, Option.bind_eq_bind, Option.bind_some]
        rw [hadded, List.append_assoc]
        rfl
      · rw [htaken]
        simp only [range]
        omega
      · have hend : range.target + 1 = nextHeight + count := by
          simp only [range]
          omega
        rw [hend]
        exact hconsecutive
      · rw [List.flatMap_cons, hflat]
        have hsplit : target + 1 - nextHeight = count + (target + 1 - (nextHeight + count)) := by omega
        rw [hsplit, List.take_add, List.drop_drop]
      · intro other hmem
        rcases List.mem_cons.mp hmem with rfl | hmem
        · simp only [range]
          omega
        · exact hbound other hmem
    · refine ⟨[], ?_, trivial, ?_, fun range hmem => by cases hmem⟩
      · rw [planLoop, if_neg hle, List.append_nil]
      · have hnone : target + 1 - nextHeight = 0 := by omega
        rw [hnone, List.take_zero]
        rfl

end PaqusNetwork
