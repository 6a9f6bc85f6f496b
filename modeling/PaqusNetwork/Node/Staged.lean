import PaqusNetwork.Reference.Sample
import Mathlib.Data.List.Dedup

namespace PaqusNetwork

open Effect
open Std hiding compare_eq_iff_eq

variable {F : Type}

inductive StagingCall
  | stage (hash : BlockHash) (compact : CompactBlock)
  | take (hash : BlockHash)

def StagingCall.after (node : Node F) : StagingCall → Node F
  | stage hash compact => state (stageCompactBlock hash compact node)
  | take hash => state (takeCompactBlock hash node)

/-- The node after calls, the last one first, that began with nothing staged. -/
def afterStaging (start : Node F) : List StagingCall → Node F
  | [] => { start with pendingCompactBlocks := ∅ }
  | call :: earlier => call.after (afterStaging start earlier)

def lastStaged (hash : BlockHash) : List StagingCall → Option CompactBlock
  | [] => none
  | .stage other compact :: earlier => if other = hash then some compact else lastStaged hash earlier
  | .take other :: earlier => if other = hash then none else lastStaged hash earlier

/-- The other hashes that were staged since the last staging of a hash. -/
def stagedSince (hash : BlockHash) : List StagingCall → List BlockHash
  | [] => []
  | .stage other _ :: earlier => if other = hash then [] else other :: stagedSince hash earlier
  | .take _ :: earlier => stagedSince hash earlier

/-- Every other staged block was staged after the one of the hash. -/
def Oldest (calls : List StagingCall) (node : Node F) (hash : BlockHash) : Prop :=
  ∀ other ∈ node.pendingCompactBlocks, other ≠ hash → other ∈ stagedSince hash calls

/-- The staging removes no other block when the hash is staged already, and none but the oldest when not. -/
def Spares (calls : List StagingCall) (node : Node F) (hash : BlockHash) (compact : CompactBlock) : Prop :=
  ∀ other ∈ node.pendingCompactBlocks, other ≠ hash →
    other ∉ (state (stageCompactBlock hash compact node)).pendingCompactBlocks →
      hash ∉ node.pendingCompactBlocks ∧ Oldest calls node other

/-- The block that a staging removes: with 64 blocks staged, the one with the least hash. -/
def Evicts (node : Node F) (hash : BlockHash) : Prop :=
  maxPendingCompactBlocks ≤ node.pendingCompactBlocks.size ∧ node.pendingCompactBlocks.minKey? = some hash

/-- The block that goes is the one that is staged again or, for a new hash, the oldest. -/
def LeastInTurn (calls : List StagingCall) (node : Node F) (hash : BlockHash) : Prop :=
  ∀ least, Evicts node least →
    if hash ∈ node.pendingCompactBlocks then least = hash else Oldest calls node least

section Stage

variable {calls : List StagingCall} {hash key : BlockHash} {compact found : CompactBlock} {node : Node F}

theorem getElem?_staged (hne : key ≠ hash) :
    (state (stageCompactBlock hash compact node)).pendingCompactBlocks[key]? = some found ↔
      ¬Evicts node key ∧ node.pendingCompactBlocks[key]? = some found := by
  simp only [stageCompactBlock, modify_apply, state_ok, ExtTreeMap.getElem?_insert, compare_eq_iff_eq,
    if_neg hne.symm, Evicts, ge_iff_le]
  split
  next hfull =>
    split
    next least hleast =>
      rw [ExtTreeMap.getElem?_erase]
      by_cases hkey : least = key
      · simp [hkey, hleast, hfull]
      · simp [hkey, hleast]
    next hnone => simp [hnone]
  next hroom => simp [hroom]

theorem mem_staged (hne : key ≠ hash) :
    key ∈ (state (stageCompactBlock hash compact node)).pendingCompactBlocks ↔
      ¬Evicts node key ∧ key ∈ node.pendingCompactBlocks := by
  simp only [← ExtTreeMap.isSome_getElem?_iff_mem, Option.isSome_iff_exists, getElem?_staged hne, exists_and_left]

theorem size_staged (h : node.pendingCompactBlocks.size ≤ maxPendingCompactBlocks) :
    (state (stageCompactBlock hash compact node)).pendingCompactBlocks.size ≤ maxPendingCompactBlocks := by
  simp only [stageCompactBlock, modify_apply, state_ok]
  refine Nat.le_trans ExtTreeMap.size_insert_le ?_
  split
  next hfull =>
    split
    next least hleast =>
      rw [ExtTreeMap.size_erase, if_pos (ExtTreeMap.contains_minKey? hleast)]
      unfold maxPendingCompactBlocks at *
      omega
    next hnone =>
      rw [ExtTreeMap.minKey?_eq_none_iff.mp hnone]
      decide
  next hroom => omega

theorem spares_iff : Spares calls node hash compact ↔ LeastInTurn calls node hash := by
  constructor
  · intro h least hevicts
    have hmem := ExtTreeMap.minKey?_mem hevicts.2
    have hgone := fun hne : least ≠ hash => h least hmem hne fun hkept => ((mem_staged hne).mp hkept).1 hevicts
    split
    next hagain => exact not_not.mp fun hne => (hgone hne).1 hagain
    next hnew => exact (hgone fun heq => hnew (heq ▸ hmem)).2
  · intro h other hother hne hlost
    have hevicts : Evicts node other := not_not.mp fun hkept => hlost ((mem_staged hne).mpr ⟨hkept, hother⟩)
    have hturn := h other hevicts
    split at hturn
    · exact absurd hturn hne
    next hnew => exact ⟨hnew, hturn⟩

/-- The oldest of 64 blocks has seen 64 others when a new hash is staged. -/
theorem Oldest.count_le (h : Oldest calls node key) (hevicts : Evicts node key)
    (hnew : hash ∉ node.pendingCompactBlocks) :
    maxPendingCompactBlocks ≤ (hash :: stagedSince key calls).dedup.length := by
  obtain ⟨hfull, hleast⟩ := hevicts
  let others := node.pendingCompactBlocks.keys.erase key
  have hkeys : node.pendingCompactBlocks.keys.Nodup :=
    ExtTreeMap.distinct_keys.imp fun hne heq => hne (compare_eq_iff_eq.mpr heq)
  have hcount : others.length + 1 = node.pendingCompactBlocks.size := by
    rw [List.length_erase_of_mem (ExtTreeMap.mem_keys.mpr (ExtTreeMap.minKey?_mem hleast)), ExtTreeMap.length_keys]
    unfold maxPendingCompactBlocks at hfull
    omega
  have hnodup : (hash :: others).Nodup :=
    List.nodup_cons.mpr ⟨fun hin => hnew (ExtTreeMap.mem_keys.mp (List.mem_of_mem_erase hin)), hkeys.erase key⟩
  have hsub : hash :: others ⊆ (hash :: stagedSince key calls).dedup := by
    intro other hother
    rw [List.mem_dedup]
    refine List.mem_cons.mpr ((List.mem_cons.mp hother).imp_right fun hin => ?_)
    obtain ⟨hne, hstaged⟩ := hkeys.mem_erase_iff.mp hin
    exact h other (ExtTreeMap.mem_keys.mp hstaged) hne
  have hle := (List.subperm_of_subset hnodup hsub).length_le
  rw [List.length_cons] at hle
  omega

theorem getElem?_of_recent {start : Node F}
    (hturn : ∀ hash compact earlier, .stage hash compact :: earlier <:+ calls →
      LeastInTurn earlier (afterStaging start earlier) hash)
    (hlast : lastStaged key calls = some found)
    (hrecent : (stagedSince key calls).dedup.length < maxPendingCompactBlocks) :
    (afterStaging start calls).pendingCompactBlocks[key]? = some found := by
  induction calls with
  | nil => cases hlast
  | cons call earlier ih =>
    have hbefore := ih fun hash compact older hsuffix => hturn hash compact older (hsuffix.trans (List.suffix_cons ..))
    cases call with
    | take hash =>
      simp only [lastStaged] at hlast
      split at hlast
      · cases hlast
      next hne =>
        show ((afterStaging start earlier).pendingCompactBlocks.erase hash)[key]? = _
        rw [ExtTreeMap.getElem?_erase, if_neg (by simpa using hne)]
        exact hbefore hlast hrecent
    | stage hash compact =>
      simp only [lastStaged, stagedSince] at hlast hrecent
      split at hlast
      next heq =>
        cases hlast
        subst heq
        exact ExtTreeMap.getElem?_insert_self
      next hne =>
        rw [if_neg hne] at hrecent
        have hfewer : (stagedSince key earlier).dedup.length ≤ (hash :: stagedSince key earlier).dedup.length := by
          rw [List.dedup_cons]
          split <;> simp
        have hheld := hbefore hlast (Nat.lt_of_le_of_lt hfewer hrecent)
        refine (getElem?_staged (Ne.symm hne)).mpr ⟨?_, hheld⟩
        intro hevicts
        have hnext := hturn hash compact earlier List.suffix_rfl key hevicts
        split at hnext
        · exact hne hnext.symm
        next hnew => exact absurd (hnext.count_le hevicts hnew) (Nat.not_le_of_lt hrecent)

end Stage

/-- After calls of which each staging finds the least hash in turn, what was staged last under a hash is taken
as long as fewer than 64 other hashes were staged since. -/
theorem staged_blocks_kept (start : Node F) (calls : List StagingCall) :
    (afterStaging start calls).pendingCompactBlocks.size ≤ maxPendingCompactBlocks ∧
    (∀ hash compact, Spares calls (afterStaging start calls) hash compact ↔
      LeastInTurn calls (afterStaging start calls) hash) ∧
    ((∀ hash compact earlier, .stage hash compact :: earlier <:+ calls →
        LeastInTurn earlier (afterStaging start earlier) hash) →
      ∀ hash compact, lastStaged hash calls = some compact →
        (stagedSince hash calls).dedup.length < maxPendingCompactBlocks →
          outcome (takeCompactBlock hash (afterStaging start calls)) = .ok (some compact)) := by
  refine ⟨?_, fun _ _ => spares_iff, fun hturn hash compact hlast hrecent => ?_⟩
  · induction calls with
    | nil => simp [afterStaging]
    | cons call earlier ih =>
      cases call with
      | stage hash compact => exact size_staged ih
      | take hash => exact Nat.le_trans ExtTreeMap.size_erase_le ih
  · rw [← getElem?_of_recent hturn hlast hrecent]
    rfl

namespace Reference

def stagedBlock : CompactBlock := ⟨genesisBlock.header, [], none, []⟩

theorem minKey?_eq_one {pending : BTreeMap BlockHash CompactBlock} (hone : 1 ∈ pending)
    (hkeys : ∀ key ∈ pending.keys, (compare 1 key).isLE = true) : pending.minKey? = some 1 :=
  ExtTreeMap.minKey?_eq_some_iff_mem_and_forall.mpr ⟨hone, fun key hkey => hkeys key (ExtTreeMap.mem_keys.mpr hkey)⟩

/-- A new hash is staged while there is room, or when the block of the first hash is the oldest. -/
def inTurn (start : Node ForkTree) : List StagingCall → Bool
  | .stage hash _ :: earlier =>
    let pending := (afterStaging start earlier).pendingCompactBlocks
    pending.size < maxPendingCompactBlocks || !decide (hash ∈ pending) && decide (1 ∈ pending) &&
      pending.keys.all fun key => (compare 1 key).isLE && (key == 1 || (stagedSince 1 earlier).contains key)
  | _ => true

theorem inTurn_least {start : Node ForkTree} {hash : BlockHash} {compact : CompactBlock} {earlier : List StagingCall}
    (h : inTurn start (.stage hash compact :: earlier) = true) :
    LeastInTurn earlier (afterStaging start earlier) hash := by
  rintro least ⟨hfull, hleast⟩
  simp only [inTurn, Bool.or_eq_true, decide_eq_true_eq, Nat.not_lt.mpr hfull, false_or, Bool.and_eq_true,
    Bool.not_eq_true', decide_eq_false_iff_not, List.all_eq_true, beq_iff_eq, List.contains_iff_mem] at h
  obtain ⟨⟨hnew, hfirst⟩, hkeys⟩ := h
  cases hleast.symm.trans (minKey?_eq_one hfirst fun key hkey => (hkeys key hkey).1)
  rw [if_neg hnew]
  exact fun other hother hne => (hkeys other (ExtTreeMap.mem_keys.mpr hother)).2.resolve_left hne

def risingStaging : List StagingCall := (List.range 65).map fun index => .stage (65 - index) stagedBlock

theorem staged_blocks_kept_rising : ∃ start : Node ForkTree, freshNode 2 = .ok start ∧
    (afterStaging start (risingStaging.drop 1)).pendingCompactBlocks.size = maxPendingCompactBlocks ∧
    outcome (takeCompactBlock 2 (afterStaging start risingStaging)) = .ok (some stagedBlock) := by
  obtain ⟨start, hstart, hturns⟩ : ∃ start, freshNode 2 = .ok start ∧
      ∀ calls ∈ risingStaging.tails, inTurn start calls = true := exists_ok_and (by decide +kernel)
  refine ⟨start, hstart, of_ok hstart (by decide +kernel),
    (staged_blocks_kept start _).2.2 ?_ 2 _ rfl (by decide +kernel)⟩
  exact fun hash compact earlier hsuffix => inTurn_least (hturns _ ((List.mem_tails _ _).mpr hsuffix))

def fullStaging : List StagingCall := (List.range 64).map fun index => .stage (index + 1) stagedBlock

/-- The block that was staged last goes when another one is staged, also when that one is staged again. -/
theorem staged_blocks_lost : ∃ start : Node ForkTree, freshNode 2 = .ok start ∧
    lastStaged 1 (.stage 100 stagedBlock :: fullStaging) = some stagedBlock ∧
    stagedSince 1 (.stage 100 stagedBlock :: fullStaging) = [100] ∧
    outcome (takeCompactBlock 1 (afterStaging start (.stage 100 stagedBlock :: fullStaging))) = .ok none ∧
    64 ∈ (afterStaging start fullStaging).pendingCompactBlocks ∧
    ¬Spares fullStaging (afterStaging start fullStaging) 64 stagedBlock := by
  obtain ⟨start, hstart, hfull, ⟨hone, hlast⟩, hkeys⟩ : ∃ start, freshNode 2 = .ok start ∧
      let pending := (afterStaging start fullStaging).pendingCompactBlocks
      maxPendingCompactBlocks ≤ pending.size ∧ (1 ∈ pending ∧ 64 ∈ pending) ∧
        ∀ key ∈ pending.keys, (compare 1 key).isLE = true := exists_ok_and (by decide +kernel)
  have hleast := minKey?_eq_one hone hkeys
  have hgone : ∀ hash ≠ 1, 1 ∉ (state (stageCompactBlock hash stagedBlock
      (afterStaging start fullStaging))).pendingCompactBlocks :=
    fun hash hne hkept => ((mem_staged (Ne.symm hne)).mp hkept).1 ⟨hfull, hleast⟩
  refine ⟨start, hstart, rfl, rfl, congrArg Except.ok (ExtTreeMap.getElem?_eq_none (hgone 100 (by decide))),
    hlast, fun hspares => ?_⟩
  exact (hspares 1 hone (by decide) (hgone 64 (by decide))).1 hlast

end Reference

end PaqusNetwork
