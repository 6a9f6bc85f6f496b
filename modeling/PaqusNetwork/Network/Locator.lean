import Mathlib.Data.List.TakeWhile
import PaqusNetwork.Network.HeaderSync

namespace PaqusNetwork

open Effect Numeric

variable {F : Type} {paqus : Paqus F} {ranking : Ranking} {locator : List BlockHash} {indexed : ForkNode}
  {hash : BlockHash}

/-- The hashes of the locator before the first one of the canonical chain. -/
def beforeCanonical (paqus : Paqus F) (ledger : Ledger) (locator : List BlockHash) : List BlockHash :=
  locator.takeWhile fun hash => !ledger.isCanonical paqus hash

theorem findAncestor_skip {node : Node F}
    (h : ∀ hash ∈ beforeCanonical paqus node.ledger locator, paqus.fork.get node.forkChoice hash = none) :
    findAncestor paqus node locator = findAncestor paqus node
      (locator.dropWhile fun hash => !node.ledger.isCanonical paqus hash) := by
  have hskip : findAncestor paqus node (beforeCanonical paqus node.ledger locator) = none := by
    refine List.findSome?_eq_none_iff.mpr fun hash hmem => ?_
    rw [h hash hmem]
    rfl
  conv_lhs => rw [← List.takeWhile_append_dropWhile (p := fun hash => !node.ledger.isCanonical paqus hash)
    (l := locator)]
  unfold findAncestor at hskip ⊢
  rw [List.findSome?_append]
  unfold beforeCanonical at hskip
  rw [hskip, Option.none_or]

theorem findAncestor_side {node : Node F} (hmem : hash ∈ beforeCanonical paqus node.ledger locator)
    (hknown : paqus.fork.get node.forkChoice hash = some indexed) :
    ∃ tip, findAncestor paqus node locator = some tip ∧
      node.ledger.isCanonical paqus tip.hash = false := by
  have hsome : findAncestor paqus node (beforeCanonical paqus node.ledger locator) ≠ none := fun hnone => by
    have hunknown := List.findSome?_eq_none_iff.mp hnone hash hmem
    rw [hknown] at hunknown
    cases hunknown
  obtain ⟨tip, htip⟩ := Option.ne_none_iff_exists'.mp hsome
  obtain ⟨first, hfirst, hinfo⟩ := List.exists_of_findSome?_eq_some htip
  obtain ⟨found, _, rfl⟩ := Option.map_eq_some_iff.mp hinfo
  refine ⟨found.tipInfo first, ?_, ?_⟩
  · have hsplit : locator = beforeCanonical paqus node.ledger locator ++
        locator.dropWhile fun hash => !node.ledger.isCanonical paqus hash :=
      List.takeWhile_append_dropWhile.symm
    rw [hsplit, findAncestor, List.findSome?_append]
    unfold findAncestor at htip
    rw [htip, Option.some_or]
  · simpa [ForkNode.tipInfo] using List.mem_takeWhile_imp hfirst

section Responder

variable (laws : ProtocolLaws paqus ranking) {node : Node F}

include laws

theorem anchored_of_canonical (hs : node.toCore.Sound paqus ranking)
    (hknown : paqus.fork.get node.forkChoice hash = some indexed)
    (hcanonical : node.ledger.isCanonical paqus hash = true) :
    Anchored paqus node (indexed.tipInfo hash) := by
  obtain ⟨height, header, hheader, hhash⟩ := Ledger.isCanonical_iff.mp hcanonical
  obtain ⟨found, hfound, rfl, rfl, hhash'⟩ := hs.header laws hheader
  cases hhash.symm.trans hhash'
  cases hknown.symm.trans hfound
  have hnext : ∀ next, node.ledger.chain.headers[indexed.height + 1]? = some next →
      next.previousHash = indexed.hash := fun next h => hs.linked laws hheader hhash h
  refine ⟨⟨_, hheader, hhash⟩, ?_, ?_⟩
  · intro limit header headers hanswer
    rw [answer_headers] at hanswer
    obtain ⟨hfirst, _⟩ := mapWhile_head (NetworkMessage.blockHeaders.inj (Except.ok.inj hanswer))
    exact hnext header hfirst
  · intro request honest target
    refine requestHeadersLoop_honest (hs.linked laws) (hs.placed laws) rfl honest target ?_ (Nat.le_refl _)
    intro hroom header hfirst
    have hstart : saturatingAdd indexed.height 1 = indexed.height + 1 := by
      rcases Nat.lt_or_ge indexed.height u64Max with hlt | hge
      · exact saturatingAdd_eq hlt
      · exact absurd hroom (Nat.not_lt.mpr (Nat.le_min.mpr ⟨Nat.le_add_right_of_le hge, Nat.le_refl _⟩))
    exact hnext header (hstart ▸ hfirst)

/-- The reported common ancestor is canonical, and headers can be downloaded from there, if and only if no
side block comes in the locator before its first canonical block. -/
theorem commonAncestor_anchored_iff (h : Reachable paqus node) (locator : List BlockHash) :
    (∀ tip, node.answer paqus (.getCommonAncestor locator) = .ok (.commonAncestor (some tip)) →
        Anchored paqus node tip) ↔
      ∀ hash ∈ beforeCanonical paqus node.ledger locator,
        paqus.fork.get node.forkChoice hash = none := by
  have hs : node.toCore.Sound paqus ranking := reachable_sound laws h
  simp only [answer_commonAncestor, Except.ok.injEq, NetworkMessage.commonAncestor.injEq]
  constructor
  · intro hanchored hash hmem
    by_contra hknown
    obtain ⟨indexed, hknown⟩ := Option.ne_none_iff_exists'.mp hknown
    obtain ⟨tip, htip, hside⟩ := findAncestor_side hmem hknown
    obtain ⟨header, hheader, hhash⟩ := (hanchored tip htip).canonical
    rw [Ledger.isCanonical_iff.mpr ⟨_, header, hheader, hhash⟩] at hside
    cases hside
  · intro hunknown tip htip
    rw [findAncestor_skip hunknown] at htip
    generalize hrest : locator.dropWhile (fun hash => !node.ledger.isCanonical paqus hash) = rest at htip
    cases rest with
    | nil => cases htip
    | cons hash rest =>
      have hcanonical : node.ledger.isCanonical paqus hash = true := by
        have hhead := List.head_dropWhile_not (l := locator)
          (fun hash => !node.ledger.isCanonical paqus hash) (by rw [hrest]; simp)
        simpa [hrest] using hhead
      obtain ⟨height, header, hheader, hhash⟩ := Ledger.isCanonical_iff.mp hcanonical
      obtain ⟨indexed, hknown, _, _, hhash'⟩ := hs.header laws hheader
      cases hhash.symm.trans hhash'
      have hfirst : findAncestor paqus node (indexed.hash :: rest) = some (indexed.tipInfo indexed.hash) := by
        unfold findAncestor
        rw [List.findSome?_cons, show paqus.fork.get node.forkChoice indexed.hash = some indexed from hknown]
        rfl
      cases hfirst.symm.trans htip
      exact anchored_of_canonical laws hs hknown hcanonical

end Responder

namespace Reference

def heavy : Tip := Tip.genesis.next 111 10 []

def light : Tip := Tip.genesis.next 121 1 []

def responder : Except NodeError (Node ForkTree) :=
  sampleRun 5 [.applyBlock light.block, .applyBlock heavy.block, .applyBlock (heavy.next 112 10 []).block]

theorem commonAncestor_anchored_shared :
    ∃ node, responder = .ok node ∧
      node.answer (protocol 5) (.getCommonAncestor [999, digest heavy.block, digest genesisBlock]) =
        .ok (.commonAncestor (some ⟨1, digest heavy.block, 11⟩)) ∧
      Anchored (protocol 5) node ⟨1, digest heavy.block, 11⟩ := by
  obtain ⟨node, hnode⟩ : ∃ node, responder = .ok node := exists_ok (by decide +kernel)
  have hanswer : node.answer (protocol 5) (.getCommonAncestor [999, digest heavy.block, digest genesisBlock]) =
      .ok (.commonAncestor (some ⟨1, digest heavy.block, 11⟩)) := by
    rw [answer_commonAncestor, show findAncestor (protocol 5) node _ = some ⟨1, digest heavy.block, 11⟩ from
      of_ok hnode (by decide +kernel)]
  exact ⟨node, hnode, hanswer, (commonAncestor_anchored_iff (protocol_laws 5) (sampleRun_reachable hnode) _).mpr
    (of_ok hnode (by decide +kernel)) _ hanswer⟩

/-- A node on the lighter branch sends its own locator: the answer is a side block of the responder, and the
download from there fails at the first header. -/
theorem commonAncestor_side_block :
    ∃ requester node locator, sampleRun 5 [.applyBlock light.block] = .ok requester ∧
      responder = .ok node ∧ Reachable (protocol 5) node ∧
      blockLocator (protocol 5) requester = .ok locator ∧
      node.answer (protocol 5) (.getCommonAncestor locator) = .ok (.commonAncestor (some ⟨1, digest light.block, 2⟩)) ∧
      ¬Anchored (protocol 5) node ⟨1, digest light.block, 2⟩ ∧
      requestHeaders (protocol 5) (node.answer (protocol 5)) 2 2 (digest light.block) =
        some (.error (.unexpectedParent 2 (digest heavy.block))) := by
  obtain ⟨requester, hrequester, hlocator⟩ : ∃ requester, sampleRun 5 [.applyBlock light.block] = .ok requester ∧
      blockLocator (protocol 5) requester = .ok [digest light.block, digest genesisBlock] :=
    exists_ok_and (by decide +kernel)
  obtain ⟨node, hnode, hanswer, hside⟩ : ∃ node, responder = .ok node ∧
      findAncestor (protocol 5) node [digest light.block, digest genesisBlock] = some ⟨1, digest light.block, 2⟩ ∧
      node.ledger.isCanonical (protocol 5) (digest light.block) = false := exists_ok_and (by decide +kernel)
  refine ⟨requester, node, _, hrequester, hnode, sampleRun_reachable hnode, hlocator, ?_, ?_,
    of_ok hnode (by decide +kernel)⟩
  · rw [answer_commonAncestor, hanswer]
  · rintro ⟨⟨header, hcanonical, hhash⟩, _, _⟩
    rw [Ledger.isCanonical_iff.mpr ⟨_, header, hcanonical, hhash⟩] at hside
    cases hside

end Reference

variable {tip count : Nat}

def locatorStep : Nat → Nat
  | 0 => 1
  | entry + 1 => if entry + 1 ≥ 10 then locatorStep entry * 2 else locatorStep entry

def locatorDepth : Nat → Nat
  | 0 => 0
  | entry + 1 => locatorDepth entry + locatorStep entry

def locatorHeights (tip count : Nat) : List Nat := (List.range count).map (tip - locatorDepth ·)

theorem locatorStep_bounds (entry : Nat) : 0 < locatorStep entry ∧ locatorStep entry ≤ locatorDepth entry + 2 := by
  induction entry with
  | zero => decide
  | succ entry ih =>
    unfold locatorStep locatorDepth
    split <;> omega

theorem locatorDepth_lt {left right : Nat} (h : left < right) : locatorDepth left < locatorDepth right := by
  induction h with
  | refl => exact Nat.lt_add_of_pos_right (locatorStep_bounds left).1
  | step _ ih => exact Nat.lt_add_right _ ih

theorem locatorHeights_succ :
    locatorHeights tip (count + 1) = locatorHeights tip count ++ [tip - locatorDepth count] := by
  simp [locatorHeights, List.range_succ]

/-- The entries above genesis, of which there are no more than fit. -/
structure LocatorCount (tip count : Nat) : Prop where
  room : count ≤ maxBlockLocatorHashes
  above : ∀ entry < count, locatorDepth entry < tip
  ends : count = maxBlockLocatorHashes ∨ tip ≤ locatorDepth count

theorem exists_locatorCount (tip : Nat) : ∃ count, LocatorCount tip count := by
  have hsome : ∃ count, count = maxBlockLocatorHashes ∨ tip ≤ locatorDepth count := ⟨_, .inl rfl⟩
  refine ⟨Nat.find hsome, ?_, fun entry hentry => ?_, Nat.find_spec hsome⟩
  · exact Nat.find_min' hsome (.inl rfl)
  · exact Nat.lt_of_not_le fun hle => Nat.find_min hsome hentry (.inr hle)

namespace LocatorCount

variable (h : LocatorCount tip count)

include h

section Code

variable {chain : Chain} {hash : Nat → BlockHash}
  (hheaders : ∀ height ≤ tip, ∃ header, chain.headers[height]? = some header ∧
    paqus.codec.headerHash header = .ok (hash height))

include hheaders

theorem loop_eq {entry fuel : Nat} (hentry : entry ≤ count) (hroom : entry < maxBlockLocatorHashes)
    (hfuel : tip - locatorDepth entry < fuel) :
    blockLocatorLoop paqus chain fuel (tip - locatorDepth entry) (locatorStep entry)
        ((locatorHeights tip entry).map hash) =
      .ok ((locatorHeights tip (min (count + 1) maxBlockLocatorHashes)).map hash) := by
  have hsaturated : ∀ entry < maxBlockLocatorHashes,
      saturatingMul (locatorStep entry) 2 = locatorStep entry * 2 := by decide
  induction fuel generalizing entry with
  | zero => omega
  | succ fuel ih =>
    obtain ⟨header, hheader, hhash⟩ := hheaders (tip - locatorDepth entry) (Nat.sub_le _ _)
    have hpushed : (locatorHeights tip entry).map hash ++ [hash (tip - locatorDepth entry)] =
        (locatorHeights tip (entry + 1)).map hash := by
      rw [locatorHeights_succ, List.map_append]
      rfl
    have hlength : ((locatorHeights tip (entry + 1)).map hash).length = entry + 1 := by simp [locatorHeights]
    simp only [blockLocatorLoop, hheader, hhash, Functor.map, Except.map, bind, Except.bind, hpushed, hlength]
    by_cases hlast : tip - locatorDepth entry = 0 ∨ entry + 1 ≥ maxBlockLocatorHashes
    · have hcount : min (count + 1) maxBlockLocatorHashes = entry + 1 := by
        rcases Nat.lt_or_eq_of_le hentry with hlt | rfl
        · have habove := h.above entry hlt
          omega
        · omega
      rw [if_pos hlast, hcount]
      rfl
    · have hnext : entry < count := by
        rcases Nat.lt_or_eq_of_le hentry with hlt | rfl
        · exact hlt
        · have hends := h.ends
          omega
      have hstep := (locatorStep_bounds entry).1
      have hrest := ih hnext (by omega) (by rw [locatorDepth]; omega)
      rw [locatorDepth, Nat.sub_add_eq, locatorStep, ← hsaturated entry hroom] at hrest
      rw [if_neg hlast]
      exact hrest

theorem locator_eq {node : Node F} (hchain : node.ledger.chain = chain) (htip : node.ledger.tipHeight = some tip)
    (hdistinct : ∀ height ≤ tip, hash height = hash 0 → height = 0) :
    blockLocator paqus node = .ok ((locatorHeights tip count ++ [0]).map hash) := by
  obtain ⟨genesis, hgenesis, hhash⟩ := hheaders 0 (Nat.zero_le _)
  have hloop := h.loop_eq hheaders (Nat.zero_le _) (by decide) (Nat.lt_succ_of_le (Nat.sub_le tip 0))
  simp only [blockLocator, htip, hchain]
  rw [show blockLocatorLoop paqus chain (tip + 1) tip 1 [] = _ from hloop]
  have hends := h.ends
  rcases Nat.lt_or_eq_of_le h.room with hroom | rfl
  · -- the last entry of the loop is genesis
    have hground : tip - locatorDepth count = 0 := by omega
    rw [Nat.min_eq_left hroom, locatorHeights_succ, hground]
    simp [hgenesis, hhash, bind, Except.bind, pure, Except.pure]
  · have habove := h.above 31 (by decide)
    have hother : hash 0 ≠ hash (tip - locatorDepth 31) := fun heq => by
      have hzero := hdistinct _ (Nat.sub_le _ _) heq.symm
      omega
    rw [Nat.min_eq_right (Nat.le_succ _), show maxBlockLocatorHashes = 31 + 1 from rfl, locatorHeights_succ]
    simp [hgenesis, hhash, hother, bind, Except.bind, pure, Except.pure]

end Code

omit h in
theorem mem_heights {height : Nat} : height ∈ locatorHeights tip count ++ [0] ↔
    (∃ entry < count, tip - locatorDepth entry = height) ∨ height = 0 := by
  simp [locatorHeights]

theorem descending : (locatorHeights tip count ++ [0]).Pairwise (· > ·) := by
  refine List.pairwise_append.mpr ⟨List.pairwise_map.mpr ?_, List.pairwise_singleton _ _, ?_⟩
  · refine List.Pairwise.imp_of_mem (fun {left right} _ hright hlt => ?_) List.pairwise_lt_range
    have hdepth := locatorDepth_lt hlt
    have habove := h.above right (List.mem_range.mp hright)
    omega
  · intro height hheight other hother
    obtain ⟨entry, hentry, rfl⟩ := List.mem_map.mp hheight
    have habove := h.above entry (List.mem_range.mp hentry)
    rw [List.mem_singleton.mp hother]
    omega

theorem head : (locatorHeights tip count ++ [0]).head? = some tip := by
  cases count with
  | zero =>
    have hzero : tip = 0 := by simpa [locatorDepth, maxBlockLocatorHashes] using h.ends
    simp [locatorHeights, hzero]
  | succ count => simp [locatorHeights, List.range_succ_eq_map, locatorDepth]

theorem first_gaps {entry upper lower : Nat} (hentry : entry < 10)
    (hupper : (locatorHeights tip count ++ [0])[entry]? = some upper)
    (hlower : (locatorHeights tip count ++ [0])[entry + 1]? = some lower) : upper = lower + 1 := by
  have hone : ∀ entry < 10, locatorDepth (entry + 1) = locatorDepth entry + 1 := by decide
  have hnext := hone entry hentry
  have hlimit : maxBlockLocatorHashes = 32 := rfl
  have hlength := (List.getElem?_eq_some_iff.mp hlower).1
  simp only [locatorHeights, List.length_append, List.length_map, List.length_range, List.length_singleton] at hlength
  have hroom : entry < count := by omega
  have habove := h.above entry hroom
  have hends := h.ends
  simp only [locatorHeights, List.getElem?_append, List.length_map, List.length_range, hroom, if_true,
    List.getElem?_map, List.getElem?_range, Option.map_some, Option.some.injEq] at hupper hlower
  split at hlower
  next hlater =>
    have habove' := h.above _ hlater
    simp only [List.getElem?_range hlater, Option.map_some, Option.some.injEq] at hlower
    omega
  next hlast =>
    obtain rfl : count = entry + 1 := by omega
    simp at hlower
    omega

omit h in
theorem spacing {height : Nat} (hheight : height ≤ tip) :
    ∃ found ∈ locatorHeights tip count ++ [0], found ≤ height ∧
      (∀ other ∈ locatorHeights tip count ++ [0], other ≤ height → other ≤ found) ∧
      (found = 0 ∨ height - (tip - height) ≤ found) := by
  by_cases hdeep : ∃ entry, entry < count ∧ tip - height ≤ locatorDepth entry
  · obtain ⟨hentry, hbelow⟩ := Nat.find_spec hdeep
    have hfirst : ∀ other < Nat.find hdeep, locatorDepth other < tip - height := fun other hother =>
      Nat.lt_of_not_le fun hle => Nat.find_min hdeep hother ⟨Nat.lt_trans hother hentry, hle⟩
    generalize Nat.find hdeep = entry at hentry hbelow hfirst
    refine ⟨_, mem_heights.mpr (.inl ⟨entry, hentry, rfl⟩), by omega, fun other hother hle => ?_, .inr ?_⟩
    · rcases mem_heights.mp hother with ⟨position, _, rfl⟩ | rfl
      · rcases Nat.lt_trichotomy position entry with hlt | rfl | hgt
        · have hhigher := hfirst position hlt
          omega
        · exact Nat.le_refl _
        · have hlower := locatorDepth_lt hgt
          omega
      · exact Nat.zero_le _
    · cases entry with
      | zero =>
        simp only [locatorDepth] at hbelow ⊢
        omega
      | succ entry =>
        have hprevious := hfirst entry (Nat.lt_succ_self _)
        have hstep := (locatorStep_bounds entry).2
        rw [locatorDepth]
        omega
  · refine ⟨0, mem_heights.mpr (.inr rfl), Nat.zero_le _, fun other hother hle => ?_, .inl rfl⟩
    rcases mem_heights.mp hother with ⟨entry, hentry, rfl⟩ | rfl
    · exact absurd ⟨entry, hentry, by omega⟩ hdeep
    · exact Nat.le_refl _

end LocatorCount

/-- The entries go down from the tip to genesis, and the entry below a height is genesis or no further from it
than the height is from the tip. -/
theorem blockLocator_spaced {node : Node F} {hash : Nat → BlockHash} (htip : node.ledger.tipHeight = some tip)
    (hheaders : ∀ height ≤ tip, ∃ header, node.ledger.chain.headers[height]? = some header ∧
      paqus.codec.headerHash header = .ok (hash height))
    (hdistinct : ∀ left ≤ tip, ∀ right ≤ tip, hash left = hash right → left = right) :
    (∀ fuel > tip, blockLocatorLoop paqus node.ledger.chain fuel tip 1 [] =
      blockLocatorLoop paqus node.ledger.chain (tip + 1) tip 1 []) ∧
    ∃ heights : List Nat, blockLocator paqus node = .ok (heights.map hash) ∧ heights.Pairwise (· > ·) ∧
      heights.head? = some tip ∧ heights.getLast? = some 0 ∧
      heights.length ≤ maxBlockLocatorHashes + 1 ∧ (heights.map hash).Nodup ∧
      (∀ entry < 10, ∀ upper lower, heights[entry]? = some upper → heights[entry + 1]? = some lower →
        upper = lower + 1) ∧
      ∀ height ≤ tip, ∃ found ∈ heights, found ≤ height ∧ (∀ other ∈ heights, other ≤ height → other ≤ found) ∧
        (found = 0 ∨ height - (tip - height) ≤ found) := by
  obtain ⟨count, h⟩ := exists_locatorCount tip
  have hloop : ∀ fuel > tip, blockLocatorLoop paqus node.ledger.chain fuel tip 1 [] = _ := fun fuel hfuel =>
    h.loop_eq hheaders (Nat.zero_le _) (by decide) hfuel
  refine ⟨fun fuel hfuel => (hloop fuel hfuel).trans (hloop _ (Nat.lt_succ_self _)).symm, _,
    h.locator_eq hheaders rfl htip fun height hheight => hdistinct height hheight 0 (Nat.zero_le _),
    h.descending, h.head, by simp, by simpa [locatorHeights] using h.room, ?_,
    fun entry hentry upper lower => h.first_gaps hentry, fun height => LocatorCount.spacing⟩
  have htop : ∀ height ∈ locatorHeights tip count ++ [0], height ≤ tip := by
    intro height hheight
    rcases LocatorCount.mem_heights.mp hheight with ⟨entry, _, rfl⟩ | rfl <;> omega
  refine List.Nodup.map_on ?_ (h.descending.imp Nat.ne_of_gt)
  exact fun left hleft right hright => hdistinct left (htop left hleft) right (htop right hright)

namespace Reference

def chainOf : Nat → Tip
  | 0 => .genesis
  | height + 1 => (chainOf height).next (101 + height) 1 []

def longCalls : List NodeCall := (List.range 24).map fun height => .applyBlock (chainOf (height + 1)).block

/-- Below the first heights the gaps double. -/
theorem blockLocator_spaced_doubling :
    ∃ node, sampleRun 2 longCalls = .ok node ∧ node.ledger.tipHeight = some 24 ∧
      blockLocator (protocol 2) node = .ok [124, 123, 122, 121, 120, 119, 118, 117, 116, 115, 114, 112, 108, 100] ∧
      [124, 123, 122, 121, 120, 119, 118, 117, 116, 115, 114, 112, 108, 100].length ≤ maxBlockLocatorHashes + 1 := by
  obtain ⟨node, hnode, hheaders⟩ : ∃ node, sampleRun 2 longCalls = .ok node ∧ ∀ height ∈ List.range 25,
      node.ledger.chain.headers[height]?.map (protocol 2).codec.headerHash = some (.ok (100 + height)) :=
    exists_ok_and (by decide +kernel)
  have htip : node.ledger.tipHeight = some 24 := of_ok hnode (by decide +kernel)
  have hfound : ∀ height ≤ 24, ∃ header, node.ledger.chain.headers[height]? = some header ∧
      (protocol 2).codec.headerHash header = .ok (100 + height) := fun height hheight =>
    Option.map_eq_some_iff.mp (hheaders height (List.mem_range.mpr (Nat.lt_succ_of_le hheight)))
  obtain ⟨-, heights, hspaced, -, -, -, hlength, -⟩ :=
    blockLocator_spaced htip hfound fun left _ right _ heq => Nat.add_left_cancel heq
  have hlocator : blockLocator (protocol 2) node = .ok [124, 123, 122, 121, 120, 119, 118, 117, 116, 115, 114, 112, 108,
    100] := of_ok hnode (by decide +kernel)
  rw [← Except.ok.inj (hspaced.symm.trans hlocator), List.length_map]
  exact ⟨node, hnode, htip, hspaced, hlength⟩

end Reference

end PaqusNetwork
