import PaqusNetwork.Network.Download
import PaqusNetwork.Network.HeaderSync

namespace PaqusNetwork

open Numeric Dialogue

variable {F : Type}

variable {start target : Nat} {α : Type}

def RejectReason.debug : RejectReason → String
  | protocolVersionMismatch => "ProtocolVersionMismatch"
  | chainMismatch => "ChainMismatch"
  | networkMismatch => "NetworkMismatch"
  | consensusMismatch => "ConsensusMismatch"
  | invalidMessage => "InvalidMessage"

def handshakeBootstrapPeer (api : PeerApi) : PeerDialogue Unit := do
  match ← .ask (.version (VersionInfo.ofParams api.params none)) with
  | .verAck remote =>
    match remote.validateCompatibility api.params with
    | .ok _ => return ()
    | .error reason => .fail ("peer returned incompatible version: " ++ reason.debug)
  | .chain (.reject reason message) =>
    .fail ("peer rejected handshake: " ++ reason.debug ++ ": " ++ message)
  | _ => .fail "peer returned unexpected handshake response"

def requestTip : PeerDialogue TipInfo := do
  match ← .ask (.chain .getTip) with
  | .chain (.tip info) => return info
  | _ => .fail "peer returned unexpected tip response"

/-- The loop that `request_headers` and `fetch_blocks` have in common; `none` when the fuel does not suffice.
-/
def fetchRange {S : Type} (nextHeight : S → Nat) (question : Nat → Nat → PeerMessage)
    (accept : S → PeerMessage → Except String S) (target : Nat) : Nat → S → PeerDialogue (Option S)
  | 0, sync => return if nextHeight sync ≤ target then none else some sync
  | fuel + 1, sync =>
    if nextHeight sync ≤ target then do
      let remaining := saturatingAdd (target - nextHeight sync) 1
      let reply ← .ask (question (nextHeight sync) (min remaining maxBlocksPerBatch))
      let next ← .finished (accept sync reply)
      fetchRange nextHeight question accept target fuel next
    else return some sync

section Headers

variable (paqus : Paqus F)

def HeaderSync.accept (sync : HeaderSync) : PeerMessage → Except String HeaderSync
  | .chain (.blockHeaders batch) =>
    if batch.isEmpty then .error (HeaderSyncError.display paqus paqus.texts (.emptyRange sync.nextHeight))
    else (sync.acceptBatch paqus batch).mapError (HeaderSyncError.display paqus paqus.texts)
  | _ => .error (HeaderSyncError.display paqus paqus.texts (.notHeaders sync.nextHeight))

def fetchHeaders (start target : Nat) (anchorHash : BlockHash) : PeerDialogue (Option HeaderSync) :=
  fetchRange HeaderSync.nextHeight (fun start limit => .chain (.getBlockHeadersByHeightRange start limit))
    (HeaderSync.accept paqus) target (target + 1 - start) ⟨start, anchorHash, []⟩

def downloadHeaders (api : PeerApi) : PeerDialogue (Option HeaderSync) := do
  handshakeBootstrapPeer api
  let tip ← requestTip
  fetchHeaders paqus 0 tip.height 0

end Headers

structure BlockSync where
  nextHeight : Nat
  expectedHeaders : List BlockHeader
  downloaded : List Block
  deriving DecidableEq, Repr

def BlockSync.acceptBlocks (sync : BlockSync) : List Block → Except String BlockSync
  | [] => .ok sync
  | block :: rest =>
    if block.height ≠ sync.nextHeight then
      let found := block.height
      let expected := sync.nextHeight
      .error s!"peer returned height {found} while syncing height {expected}"
    else
      match sync.expectedHeaders with
      | [] =>
        let height := block.height
        .error s!"peer returned block {height} without a prevalidated header"
      | expectedHeader :: others =>
        if block.header ≠ expectedHeader then
          let height := block.height
          .error s!"peer returned block {height} that does not match its prevalidated header"
        else acceptBlocks ⟨saturatingAdd sync.nextHeight 1, others, sync.downloaded ++ [block]⟩ rest

def BlockSync.accept (sync : BlockSync) : PeerMessage → Except String BlockSync
  | .chain (.blocks blocks) =>
    if blocks.isEmpty then
      let height := sync.nextHeight
      .error s!"peer returned empty block range starting at height {height}"
    else sync.acceptBlocks blocks
  | _ =>
    let height := sync.nextHeight
    .error s!"peer did not return block range starting at height {height}"

def fetchBlocks (start target : Nat) (headers : List BlockHeader) : PeerDialogue (Option BlockSync) :=
  fetchRange BlockSync.nextHeight (fun start limit => .chain (.getBlocksByHeightRange start limit))
    BlockSync.accept target (target + 1 - start) ⟨start, headers, []⟩

def fetchSnapshot (api : PeerApi) (tip : TipInfo) : PeerDialogue (Option (List UInt8)) := do
  handshakeBootstrapPeer api
  downloadSnapshot api tip

variable {paqus : Paqus F}

/-- One request for each batch, and one that finds nothing when the target is above the tip. -/
def rangeRequests (start target tip : Nat) : Nat :=
  chunkCount (min target tip + 1 - start) maxBlocksPerBatch + if tip < target ∧ start ≤ target then 1 else 0

variable {tip : Nat}

theorem rangeRequests_above (h : target < start) : rangeRequests start target tip = 0 := by
  have hnothing : min target tip + 1 - start = 0 := by omega
  rw [rangeRequests, hnothing, if_neg (by omega)]
  rfl

theorem rangeRequests_past (h : tip < start) (hle : start ≤ target) : rangeRequests start target tip = 1 := by
  have hnothing : min target tip + 1 - start = 0 := by omega
  rw [rangeRequests, hnothing, if_pos (by omega)]
  rfl

theorem rangeRequests_batch (htarget : start ≤ target) (htip : start ≤ tip) :
    rangeRequests start target tip =
      rangeRequests (start + min (min (target + 1 - start) maxBlocksPerBatch) (tip + 1 - start)) target tip + 1 := by
  generalize hbatch : min (min (target + 1 - start) maxBlocksPerBatch) (tip + 1 - start) = batch
  generalize hrest : min target tip + 1 - start = rest
  have hmin : min rest maxBlocksPerBatch = batch := by omega
  have hcount := @chunkCount_rest maxBlocksPerBatch rest (by omega) (by decide)
  have hleft : min target tip + 1 - (start + batch) = rest - batch := by omega
  have hsame : (tip < target ∧ start + batch ≤ target) ↔ (tip < target ∧ start ≤ target) := by omega
  rw [hmin] at hcount
  simp only [rangeRequests, hrest, hleft, hcount, hsame]
  omega

section Range

variable {S σ : Type} {nextHeight : S → Nat} {question : Nat → Nat → PeerMessage}
  {accept : S → PeerMessage → Except String S} {request : PeerMessage → EStateM String σ PeerMessage}

/-- A peer that answers each batch as far as its chain goes. -/
structure AnswersRange (nextHeight : S → Nat) (question : Nat → Nat → PeerMessage)
    (accept : S → PeerMessage → Except String S) (request : PeerMessage → EStateM String σ PeerMessage)
    (tip target : Nat) (Good : S → σ → Prop) : Prop where
  more : ∀ {sync s} limit, Good sync s → 0 < limit → nextHeight sync + limit ≤ target + 1 →
    limit ≤ maxBlocksPerBatch → nextHeight sync ≤ tip →
    ∃ reply s' next, request (question (nextHeight sync) limit) s = .ok reply s' ∧
      accept sync reply = .ok next ∧ Good next s' ∧
      nextHeight next = nextHeight sync + min limit (tip + 1 - nextHeight sync)
  done : ∀ {sync s} limit, Good sync s → tip < nextHeight sync →
    ∃ reply s' error, request (question (nextHeight sync) limit) s = .ok reply s' ∧ accept sync reply = .error error

theorem turns_fetchRange {Good : S → σ → Prop} (hpeer : AnswersRange nextHeight question accept request tip target Good)
    {fuel : Nat} {sync : S} {s : σ} (hgood : Good sync s) (hfuel : target + 1 ≤ nextHeight sync + fuel) :
    (fetchRange nextHeight question accept target fuel sync).turns request s =
      rangeRequests (nextHeight sync) target tip := by
  induction fuel generalizing sync s with
  | zero =>
    have hnone : rangeRequests (nextHeight sync) target tip = 0 := rangeRequests_above (by omega)
    rw [hnone, fetchRange]
    rfl
  | succ fuel ih =>
    unfold fetchRange
    split
    next hle =>
      dsimp only
      have hlimit : min (saturatingAdd (target - nextHeight sync) 1) maxBlocksPerBatch =
          min (target + 1 - nextHeight sync) maxBlocksPerBatch := by
        simp only [saturatingAdd, maxBlocksPerBatch, u64Max]
        omega
      rw [turns_ask_bind, hlimit]
      by_cases htip : nextHeight sync ≤ tip
      · obtain ⟨reply, s', next, hreply, haccept, hgood', hheight⟩ :=
          hpeer.more (min (target + 1 - nextHeight sync) maxBlocksPerBatch) hgood
            (by simp only [maxBlocksPerBatch]; omega) (by omega) (by omega) htip
        rw [hreply]
        dsimp only
        rw [haccept, finished_ok_bind, ih hgood' (by simp only [maxBlocksPerBatch] at hheight; omega), hheight]
        exact (rangeRequests_batch hle htip).symm
      · obtain ⟨reply, s', error, hreply, haccept⟩ := hpeer.done _ hgood (Nat.not_le.mp htip)
        rw [hreply]
        dsimp only
        rw [haccept, finished_error_bind, rangeRequests_past (Nat.not_le.mp htip) hle]
        rfl
    next hgt =>
      rw [rangeRequests_above (by omega)]
      rfl

end Range

/-- The table has an item at each height up to the tip and nothing above. -/
structure EndsAt (item : Nat → Option α) (tip : Nat) : Prop where
  stored : ∀ {height}, height ≤ tip → ∃ value, item height = some value
  above : ∀ {height}, tip < height → item height = none

section EndsAt

variable {item : Nat → Option α} (h : EndsAt item tip) {limit : Nat}

include h

theorem EndsAt.length_mapWhile (start count : Nat) :
    (mapWhile item start count).length = min count (tip + 1 - start) := by
  induction count generalizing start with
  | zero => simp [mapWhile]
  | succ count ih =>
    unfold mapWhile
    by_cases hle : start ≤ tip
    · obtain ⟨value, hvalue⟩ := h.stored hle
      rw [hvalue]
      dsimp only
      rw [List.length_cons, ih]
      omega
    · rw [h.above (Nat.not_le.mp hle)]
      dsimp only
      rw [List.length_nil]
      omega

theorem EndsAt.mapWhile_cut (start count : Nat) :
    mapWhile item start count = mapWhile item start (min count (tip + 1 - start)) := by
  induction count generalizing start with
  | zero => simp
  | succ count ih =>
    by_cases hle : start ≤ tip
    · have hmin : min (count + 1) (tip + 1 - start) = min count (tip + 1 - (start + 1)) + 1 := by omega
      rw [hmin, mapWhile, mapWhile, ih]
    · have hmin : min (count + 1) (tip + 1 - start) = 0 := by omega
      rw [hmin, mapWhile, mapWhile, h.above (Nat.not_le.mp hle)]

theorem EndsAt.heightRange_cut (htip : tip < u64Max) (hlimit : limit ≤ maxBlocksPerBatch) (start : Nat) :
    heightRange item start limit = mapWhile item start (min limit (tip + 1 - start)) := by
  rw [heightRange, h.mapWhile_cut, Nat.min_eq_left (Nat.le_trans hlimit (by decide))]
  congr 1
  unfold saturatingAdd
  omega

theorem EndsAt.length_heightRange (htip : tip < u64Max) (hlimit : limit ≤ maxBlocksPerBatch) (start : Nat) :
    (heightRange item start limit).length = min limit (tip + 1 - start) := by
  rw [h.heightRange_cut htip hlimit, h.length_mapWhile]
  omega

theorem EndsAt.heightRange_past (hlt : tip < start) (limit : Nat) : heightRange item start limit = [] := by
  rw [heightRange, List.eq_nil_iff_length_eq_zero, h.length_mapWhile]
  omega

end EndsAt

/-- The chain has a block at each height up to the tip and nothing above, and its headers are linked. -/
structure Archive (paqus : Paqus F) (chain : Chain) (tip : Nat) : Prop where
  stored : ∀ {height}, height ≤ tip → ∃ (block : Block) (hash : BlockHash),
    chain.blocks[height]? = some block ∧ chain.headers[height]? = some block.header ∧
      block.height = height ∧ paqus.codec.headerHash block.header = .ok hash
  above : ∀ {height}, tip < height → chain.blocks[height]? = none ∧ chain.headers[height]? = none
  linked : Linked paqus chain

section Archive

variable {chain : Chain} (h : Archive paqus chain tip)

include h

theorem Archive.headers : EndsAt (chain.headers[·]?) tip := by
  refine ⟨fun hle => ?_, fun hlt => (h.above hlt).2⟩
  obtain ⟨block, _, _, hstored, _⟩ := h.stored hle
  exact ⟨block.header, hstored⟩

theorem Archive.blocks : EndsAt (chain.blocks[·]?) tip := by
  refine ⟨fun hle => ?_, fun hlt => (h.above hlt).1⟩
  obtain ⟨block, _, hstored, _⟩ := h.stored hle
  exact ⟨block, hstored⟩

theorem Archive.placed : Placed paqus chain := by
  intro height header hheader
  by_cases hle : height ≤ tip
  · obtain ⟨block, hash, _, hstored, rfl, hhash⟩ := h.stored hle
    cases hheader.symm.trans hstored
    exact ⟨rfl, hash, hhash⟩
  · rw [(h.above (Nat.not_le.mp hle)).2] at hheader
    cases hheader

end Archive

theorem Core.Sound.archive {ranking : Ranking} (laws : ProtocolLaws paqus ranking)
    {core : Core F} (hs : core.Sound paqus ranking) (htip : core.ledger.tipHeight = some tip) :
    Archive paqus core.ledger.chain tip := by
  obtain ⟨tipHash, path, hactive⟩ := hs.active
  obtain ⟨top, rest, rfl, _⟩ := hactive.branch.head
  have hheight := hactive.tipHeight laws hs.graph
  rw [htip] at hheight
  obtain rfl : tip = top.height := Option.some.inj hheight
  have hblocks : ∀ height block, core.ledger.chain.blocks[height]? = some block ↔
      ∃ node ∈ top :: rest, node.height = height ∧ node.block = block :=
    fun height block => hactive.block_iff laws hs.graph
  refine ⟨fun hle => ?_, fun hlt => ⟨?_, ?_⟩, hs.linked laws⟩
  · obtain ⟨node, hmem, rfl⟩ := hs.graph.rooted.exists_rank hactive.branch hle
    have hknown := hs.graph.mem_path hactive.branch hmem
    exact ⟨node.block, node.hash, (hblocks _ _).mpr ⟨node, hmem, rfl, rfl⟩,
      (hactive.header_iff laws hs.graph).mpr ⟨node, hmem, rfl, rfl⟩, (hs.graph.block_height hknown).symm,
      hs.graph.block_hash hknown⟩
  · refine Option.eq_none_iff_forall_ne_some.mpr fun block hblock => ?_
    obtain ⟨node, hmem, rfl, _⟩ := (hblocks _ _).mp hblock
    exact absurd (hs.graph.rooted.rank_le hactive.branch hmem) (Nat.not_le.mpr hlt)
  · refine Option.eq_none_iff_forall_ne_some.mpr fun header hheader => ?_
    obtain ⟨node, hmem, rfl, _⟩ := (hactive.header_iff laws hs.graph).mp hheader
    exact absurd (hs.graph.rooted.rank_le hactive.branch hmem) (Nat.not_le.mpr hlt)

section Host

variable {api : PeerApi} {meanwhile : Nat → Node F → Node F} {ledger : Ledger}

def Host.Has (ledger : Ledger) (host : Host F) : Prop := host.node.ledger = ledger

variable {host : Host F}

section

variable (hsteady : Steady paqus api meanwhile)

include hsteady

theorem Host.ask_range (hhas : host.Has ledger) (start limit : Nat) :
    ∃ host', Host.ask paqus api meanwhile (.chain (.getBlockHeadersByHeightRange start limit)) host =
        .ok (.chain (.blockHeaders (heightRange (ledger.chain.headers[·]?) start limit))) host' ∧
      Host.ask paqus api meanwhile (.chain (.getBlocksByHeightRange start limit)) host =
        .ok (.chain (.blocks (heightRange ledger.block start limit))) host' ∧ host'.Has ledger := by
  have hledger : (meanwhile host.requests host.node).ledger = ledger := (hsteady host.requests host.node).2.trans hhas
  refine ⟨⟨meanwhile host.requests host.node, host.requests + 1⟩, Host.ask_reply ?_, Host.ask_reply ?_, hledger⟩
  all_goals
    rw [← hledger]
    rfl

theorem answersRange_headers (harchive : Archive paqus ledger.chain tip) (htip : tip < u64Max) (target : Nat) :
    AnswersRange HeaderSync.nextHeight (fun start limit => .chain (.getBlockHeadersByHeightRange start limit))
      (HeaderSync.accept paqus) (Host.ask paqus api meanwhile) tip target
      fun sync host => host.Has ledger ∧ sync.Follows ledger.chain where
  more {sync host} limit hgood hpos htarget hlimit hle := by
    obtain ⟨host', hask, _, hhas⟩ := Host.ask_range hsteady hgood.1 sync.nextHeight limit
    have hlength := harchive.headers.length_heightRange htip hlimit sync.nextHeight
    have hroom : sync.nextHeight + (saturatingAdd sync.nextHeight (min limit maxRangeResponseItems) -
        sync.nextHeight) ≤ u64Max := by
      unfold saturatingAdd
      omega
    obtain ⟨next, hnext, hfollows, hheight⟩ := HeaderSync.acceptBatch_served harchive.linked harchive.placed
      hgood.2 hroom
    refine ⟨_, host', next, hask, ?_, ⟨hhas, hfollows⟩, ?_⟩
    · have hsome : ¬(heightRange (ledger.chain.headers[·]?) sync.nextHeight limit).isEmpty = true := by
        rw [List.isEmpty_iff_length_eq_zero, hlength]
        omega
      simp only [HeaderSync.accept, if_neg hsome]
      rw [heightRange, hnext]
      rfl
    · rw [hheight, ← hlength]
      rfl
  done {sync host} limit hgood hgt := by
    obtain ⟨host', hask, _, hhas⟩ := Host.ask_range hsteady hgood.1 sync.nextHeight limit
    rw [harchive.headers.heightRange_past hgt] at hask
    exact ⟨_, host', _, hask, rfl⟩

end

/-- The headers that are still expected are those of the chain from the next height up to the last one. -/
def BlockSync.Expects (chain : Chain) (last : Nat) (sync : BlockSync) : Prop :=
  ∀ index, sync.nextHeight + index ≤ last → sync.expectedHeaders[index]? = chain.headers[sync.nextHeight + index]?

theorem BlockSync.acceptBlocks_served (harchive : Archive paqus ledger.chain tip) {last count : Nat}
    (hlast : last ≤ tip) (hroom : tip < u64Max) {sync : BlockSync} (hexpects : sync.Expects ledger.chain last)
    (hcount : sync.nextHeight + count ≤ last + 1) :
    ∃ next, sync.acceptBlocks (mapWhile ledger.block sync.nextHeight count) = .ok next ∧
      next.Expects ledger.chain last ∧ next.nextHeight = sync.nextHeight + count := by
  induction count generalizing sync with
  | zero => exact ⟨sync, rfl, hexpects, rfl⟩
  | succ count ih =>
    obtain ⟨block, hash, hblock, hheader, hheight, _⟩ := harchive.stored (show sync.nextHeight ≤ tip by omega)
    have hfirst : sync.expectedHeaders[0]? = some block.header :=
      (hexpects 0 (by omega)).trans (by rw [Nat.add_zero, hheader])
    obtain ⟨others, hothers⟩ : ∃ others, sync.expectedHeaders = block.header :: others := by
      cases hcases : sync.expectedHeaders with
      | nil => rw [hcases] at hfirst; cases hfirst
      | cons first others =>
        rw [hcases] at hfirst
        cases hfirst
        exact ⟨others, rfl⟩
    have hnext : saturatingAdd sync.nextHeight 1 = sync.nextHeight + 1 := saturatingAdd_eq (by omega)
    have hlater : (BlockSync.mk (sync.nextHeight + 1) others (sync.downloaded ++ [block])).Expects
        ledger.chain last := by
      intro index hindex
      have hshifted := hexpects (index + 1) (by simp only at hindex; omega)
      rw [hothers, List.getElem?_cons_succ] at hshifted
      rw [hshifted]
      congr 1
      simp only
      omega
    obtain ⟨next, haccept, hexpects', hheight'⟩ := ih hlater (by simp only; omega)
    refine ⟨next, ?_, hexpects', by rw [hheight']; simp only; omega⟩
    unfold mapWhile
    rw [show ledger.block sync.nextHeight = some block from hblock]
    dsimp only
    rw [BlockSync.acceptBlocks, if_neg (not_not.mpr hheight), hothers]
    dsimp only
    rw [if_neg (not_not.mpr rfl), hnext]
    exact haccept

theorem answersRange_blocks (hsteady : Steady paqus api meanwhile) (harchive : Archive paqus ledger.chain tip)
    (htip : tip < u64Max) (target : Nat) :
    AnswersRange BlockSync.nextHeight (fun start limit => .chain (.getBlocksByHeightRange start limit))
      BlockSync.accept (Host.ask paqus api meanwhile) tip target
      fun sync host => host.Has ledger ∧ sync.Expects ledger.chain (min target tip) where
  more {sync host} limit hgood hpos htarget hlimit hle := by
    obtain ⟨host', _, hask, hhas⟩ := Host.ask_range hsteady hgood.1 sync.nextHeight limit
    obtain ⟨next, hnext, hexpects, hheight⟩ := BlockSync.acceptBlocks_served harchive (Nat.min_le_right _ _) htip
      hgood.2 (show sync.nextHeight + min limit (tip + 1 - sync.nextHeight) ≤ min target tip + 1 by omega)
    refine ⟨_, host', next, hask, ?_, ⟨hhas, hexpects⟩, hheight⟩
    have hsome : ¬(heightRange ledger.block sync.nextHeight limit).isEmpty = true := by
      rw [List.isEmpty_iff_length_eq_zero]
      have hlength := harchive.blocks.length_heightRange htip hlimit sync.nextHeight
      exact Nat.ne_of_gt (Nat.lt_of_lt_of_eq (by omega) hlength.symm)
    simp only [BlockSync.accept, if_neg hsome]
    exact (congrArg _ (harchive.blocks.heightRange_cut htip hlimit sync.nextHeight)).trans hnext
  done {sync host} limit hgood hgt := by
    obtain ⟨host', _, hask, hhas⟩ := Host.ask_range hsteady hgood.1 sync.nextHeight limit
    have hnone : heightRange ledger.block sync.nextHeight limit = [] := harchive.blocks.heightRange_past hgt limit
    rw [hnone] at hask
    exact ⟨_, host', _, hask, rfl⟩

end Host

end PaqusNetwork
