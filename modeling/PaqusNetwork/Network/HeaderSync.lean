import PaqusNetwork.Network.Handler
import PaqusNetwork.Node.Finality

namespace PaqusNetwork

open Numeric

variable {F : Type} {paqus : Paqus F} {ranking : Ranking}

def Ledger.isCanonical (paqus : Paqus F) (ledger : Ledger) (hash : BlockHash) : Bool :=
  ledger.chain.headers.toList.any fun entry =>
    match paqus.codec.headerHash entry.2 with
    | .ok found => found == hash
    | .error _ => false

variable {ledger : Ledger}

theorem Ledger.isCanonical_iff {hash : BlockHash} :
    ledger.isCanonical paqus hash = true ↔
      ∃ (height : Nat) (header : BlockHeader), ledger.chain.headers[height]? = some header ∧
        paqus.codec.headerHash header = .ok hash := by
  simp only [Ledger.isCanonical, List.any_eq_true, Prod.exists, Std.ExtTreeMap.mem_toList_iff_getElem?_eq_some]
  refine exists_congr fun height => exists_congr fun header => and_congr_right fun _ => ?_
  cases paqus.codec.headerHash header with
  | error error => simp
  | ok found => simp

/-- A failure of the download that blames the links between the headers. -/
def HeaderSyncError.isLinkage : HeaderSyncError → Bool
  | wrongHeight _ _ | unexpectedParent _ _ => true
  | _ => false

def Honest (paqus : Paqus F) (node : Node F) (request : NetworkMessage → Except String NetworkMessage) :
    Prop :=
  ∀ message, request message = node.answer paqus message ∨ ∃ text, request message = .error text

/-- The block is canonical, and the headers that the node serves from there on link to it. -/
structure Anchored (paqus : Paqus F) (node : Node F) (tip : TipInfo) : Prop where
  canonical : ∃ header, node.ledger.chain.headers[tip.height]? = some header ∧
    paqus.codec.headerHash header = .ok tip.hash
  linked : ∀ limit header headers,
    node.answer paqus (.getBlockHeadersByHeightRange (tip.height + 1) limit) =
      .ok (.blockHeaders (header :: headers)) → header.previousHash = tip.hash
  downloads : ∀ request, Honest paqus node request → ∀ target, ∃ result,
    requestHeaders paqus request (saturatingAdd tip.height 1) target tip.hash = some result ∧
      ∀ error, result = .error error → error.isLinkage = false

theorem answer_commonAncestor (node : Node F) (locator : List BlockHash) :
    node.answer paqus (.getCommonAncestor locator) = .ok (.commonAncestor (findAncestor paqus node locator)) := rfl

theorem answer_headers (node : Node F) (start limit : Nat) :
    node.answer paqus (.getBlockHeadersByHeightRange start limit) =
      .ok (.blockHeaders (heightRange (node.ledger.chain.headers[·]?) start limit)) := rfl

section Range

variable {α : Type} {item : Nat → Option α}

theorem mapWhile_head {start count : Nat} {value : α} {rest : List α} (h : mapWhile item start count = value :: rest) :
    item start = some value ∧ ∃ count', count = count' + 1 ∧ mapWhile item (start + 1) count' = rest := by
  cases count with
  | zero => cases h
  | succ count =>
    unfold mapWhile at h
    split at h
    next => cases h
    next found hfound =>
      cases h
      exact ⟨hfound, count, rfl, rfl⟩

end Range

/-- The headers of a chain are linked: the header at the next height names the hash. -/
def Linked (paqus : Paqus F) (chain : Chain) : Prop :=
  ∀ {height header hash next}, chain.headers[height]? = some header →
    paqus.codec.headerHash header = .ok hash → chain.headers[height + 1]? = some next →
      next.previousHash = hash

def Placed (paqus : Paqus F) (chain : Chain) : Prop :=
  ∀ {height header}, chain.headers[height]? = some header →
    header.height = height ∧ ∃ hash, paqus.codec.headerHash header = .ok hash

section Download

variable {chain : Chain} (hlinked : Linked paqus chain) (hplaced : Placed paqus chain)

/-- The next header to be downloaded links to the previous one. The largest height is never served. -/
def HeaderSync.Follows (chain : Chain) (sync : HeaderSync) : Prop :=
  sync.nextHeight < u64Max → ∀ header, chain.headers[sync.nextHeight]? = some header →
    header.previousHash = sync.previousHash

include hlinked hplaced

variable {sync : HeaderSync}

theorem HeaderSync.acceptBatch_served (hfollows : sync.Follows chain)
    {count : Nat} (hroom : sync.nextHeight + count ≤ u64Max) :
    ∃ next, sync.acceptBatch paqus (mapWhile (chain.headers[·]?) sync.nextHeight count) = .ok next ∧
      next.Follows chain ∧
      next.nextHeight = sync.nextHeight + (mapWhile (chain.headers[·]?) sync.nextHeight count).length := by
  induction count generalizing sync with
  | zero => exact ⟨sync, rfl, hfollows, rfl⟩
  | succ count ih =>
    unfold mapWhile
    split
    next => exact ⟨sync, rfl, hfollows, rfl⟩
    next header hheader =>
      obtain ⟨hheight, hash, hhash⟩ := hplaced hheader
      have hnext : saturatingAdd sync.nextHeight 1 = sync.nextHeight + 1 := saturatingAdd_eq (by omega)
      let later : HeaderSync := ⟨sync.nextHeight + 1, hash, sync.headers ++ [header]⟩
      have hlater : later.Follows chain := fun _ next hn => hlinked hheader hhash hn
      obtain ⟨last, hlast, hfollows', hcount⟩ := ih hlater (by simp only [later]; omega)
      refine ⟨last, ?_, hfollows', ?_⟩
      · simp only [HeaderSync.acceptBatch, hheight, hfollows (by omega) header hheader, hhash, hnext, ne_eq,
          not_true_eq_false, if_false]
        exact hlast
      · rw [hcount]
        simp only [later, List.length_cons]
        omega

theorem requestHeadersLoop_honest {node : Node F} (hchain : node.ledger.chain = chain)
    {request : NetworkMessage → Except String NetworkMessage} (honest : Honest paqus node request) (target : Nat)
    {fuel : Nat} (hfollows : sync.Follows chain) (hfuel : target + 1 - sync.nextHeight ≤ fuel) :
    ∃ result, requestHeadersLoop paqus request target fuel sync = some result ∧
      ∀ error, result = .error error → error.isLinkage = false := by
  induction fuel generalizing sync with
  | zero =>
    refine ⟨.ok sync.headers, ?_, fun error he => by cases he⟩
    rw [requestHeadersLoop, if_neg (by omega)]
  | succ fuel ih =>
    unfold requestHeadersLoop
    split
    next hle =>
      dsimp only
      generalize hlimit : min (saturatingAdd (target - sync.nextHeight) 1) maxBlocksPerBatch = limit
      rcases honest (.getBlockHeadersByHeightRange sync.nextHeight limit) with hanswer | ⟨text, hanswer⟩
      · rw [hanswer, answer_headers, hchain]
        dsimp only
        split
        next => exact ⟨_, rfl, fun error he => by cases he; rfl⟩
        next hsome =>
          have hroom : sync.nextHeight + (saturatingAdd sync.nextHeight (min limit maxRangeResponseItems) -
              sync.nextHeight) ≤ u64Max := by
            have hmax : saturatingAdd sync.nextHeight (min limit maxRangeResponseItems) ≤ u64Max := Nat.min_le_right _ _
            by_contra hover
            refine hsome ?_
            have hzero : saturatingAdd sync.nextHeight (min limit maxRangeResponseItems) -
                sync.nextHeight = 0 := by omega
            rw [heightRange, hzero]
            rfl
          obtain ⟨next, hnext, hfollows', hheight⟩ := HeaderSync.acceptBatch_served hlinked hplaced hfollows hroom
          have hcount : 0 < (heightRange (chain.headers[·]?) sync.nextHeight limit).length :=
            List.length_pos_iff.mpr (by simpa using hsome)
          rw [heightRange] at hcount ⊢
          rw [hnext]
          exact ih hfollows' (by omega)
      · rw [hanswer]
        exact ⟨_, rfl, fun error he => by cases he; rfl⟩
    next => exact ⟨_, rfl, fun error he => by cases he⟩

end Download

theorem chainOf_headers (path : List ForkNode) (height : Nat) :
    (chainOf path).headers[height]? = ((chainOf path).blocks[height]?).map Block.header := by
  induction path with
  | nil => simp [chainOf, Chain.new]
  | cons node rest ih =>
    simp only [chainOf, Chain.push, Std.ExtTreeMap.getElem?_insert, ih]
    split <;> rfl

section Responder

variable (laws : ProtocolLaws paqus ranking)

include laws

variable {height : Nat}

theorem OnBranch.header_iff {accounts : BTreeMap Address Account} {f : F}
    {tip : BlockHash} {path : List ForkNode} (hg : GraphSound paqus ranking accounts f)
    (h : OnBranch paqus accounts f ledger tip path) {header : BlockHeader} :
    ledger.chain.headers[height]? = some header ↔
      ∃ node ∈ path, node.height = height ∧ node.block.header = header := by
  rw [h.chain_eq laws hg, chainOf_headers, Option.map_eq_some_iff]
  constructor
  · rintro ⟨block, hblock, rfl⟩
    obtain ⟨node, hmem, hheight, rfl⟩ := (hg.chainOf_blocks h.branch height block).mp hblock
    exact ⟨node, hmem, hheight, rfl⟩
  · rintro ⟨node, hmem, hheight, rfl⟩
    exact ⟨_, (hg.chainOf_blocks h.branch height _).mpr ⟨node, hmem, hheight, rfl⟩, rfl⟩

variable {core : Core F} (hs : core.Sound paqus ranking)

include hs

theorem Core.Sound.header {header : BlockHeader} (h : core.ledger.chain.headers[height]? = some header) :
    ∃ node, paqus.fork.get core.forkChoice node.hash = some node ∧ node.height = height ∧
      node.block.header = header ∧ paqus.codec.headerHash header = .ok node.hash := by
  obtain ⟨tip, path, hactive⟩ := hs.active
  obtain ⟨node, hmem, hheight, rfl⟩ := (hactive.header_iff laws hs.graph).mp h
  exact ⟨node, hs.graph.mem_path hactive.branch hmem, hheight, rfl, hs.graph.path_hash hactive.branch node hmem⟩

theorem Core.Sound.placed : Placed paqus core.ledger.chain := by
  intro height header hheader
  obtain ⟨node, hknown, rfl, rfl, hhash⟩ := hs.header laws hheader
  exact ⟨(hs.graph.block_height hknown).symm, node.hash, hhash⟩

theorem Core.Sound.linked : Linked paqus core.ledger.chain := by
  intro height header hash next hheader hhash hnext
  obtain ⟨tip, path, hactive⟩ := hs.active
  obtain ⟨lower, hlower, rfl, rfl⟩ := (hactive.header_iff laws hs.graph).mp hheader
  obtain ⟨upper, hupper, hheight, rfl⟩ := (hactive.header_iff laws hs.graph).mp hnext
  have hparent : upper.parent? = some upper.parent := by simp [ForkNode.parent?, hheight]
  obtain ⟨found, hfound, hget⟩ := hactive.branch.parent_mem hupper hparent
  obtain ⟨found', hget', hrank⟩ := hs.graph.rooted.parent_known (hs.graph.mem_path hactive.branch hupper) hparent
  cases hget.symm.trans hget'
  obtain rfl : found = lower := hs.graph.rooted.eq_of_rank hactive.branch hfound hlower (by omega)
  cases hhash.symm.trans (hs.graph.path_hash hactive.branch found hfound)
  rw [hs.graph.rooted.key_eq hget]
  exact (hs.graph.block_parent (hs.graph.mem_path hactive.branch hupper)).symm

end Responder

end PaqusNetwork
