import PaqusNetwork.OrderedMap
import PaqusNetwork.Storage.Steps

namespace PaqusNetwork.Storage

open Effect Std

variable {F : Type} {paqus : Paqus F}

def QuietFor (count : Nat) (storage : Storage) : Prop := ∀ n < count, storage.faults (storage.calls + n) = none

instance QuietFor.decidable (count : Nat) (storage : Storage) : Decidable (storage.QuietFor count) :=
  inferInstanceAs (Decidable (∀ n < count, storage.faults (storage.calls + n) = none))

variable {storage : Storage} {count : Nat}

theorem QuietFor.next (h : storage.QuietFor (count + 1)) : storage.faults storage.calls = none := h 0 (by omega)

theorem QuietFor.mono {count' : Nat} (h : storage.QuietFor count) (hle : count' ≤ count) : storage.QuietFor count' :=
  fun n hn => h n (by omega)

variable {next : Storage}

theorem QuietFor.after {rest : Nat} (h : storage.QuietFor count) (hfaults : next.faults = storage.faults)
    (hge : storage.calls ≤ next.calls) (hle : next.calls + rest ≤ storage.calls + count) : next.QuietFor rest := by
  intro n hn
  have hfault := h (next.calls - storage.calls + n) (by omega)
  rwa [hfaults, show next.calls + n = storage.calls + (next.calls - storage.calls + n) by omega]

variable {issue : RollbackIssue}

theorem IssuesValid.saved (h : storage.IssuesValid paqus)
    (hissue : validateRollbackIssue paqus issue none = .ok ()) (calls : Nat) :
    IssuesValid paqus
      { storage with calls, rollbackIssues := storage.rollbackIssues.insert issue.id issue } := by
  intro id found hfound
  dsimp only at hfound
  rw [OrderedMap.getElem?_insert] at hfound
  split at hfound
  next heq =>
    cases hfound
    exact ⟨hissue, heq⟩
  next => exact h id found hfound

theorem saveRollbackProofContext_answered {context : RollbackProofContext}
    (h : saveRollbackProofContext paqus context storage = .ok () next) :
    next.faults = storage.faults ∧ next.calls = storage.calls + 1 ∧
      next.rollbackIssues = storage.rollbackIssues := by
  unfold saveRollbackProofContext at h
  obtain ⟨expected, _, hrest⟩ := liftExcept_bind_eq_ok.mp h
  obtain ⟨_, _, hensure, hrest⟩ := bind_eq_ok.mp hrest
  cases (ensure_eq_ok.mp hensure).2
  obtain ⟨_, called, hcall, hrest⟩ := bind_eq_ok.mp hrest
  cases (databaseCall_ok hcall).2
  cases hrest
  exact ⟨rfl, rfl, rfl⟩

/-- At most `count` calls were made, and they gave every stored issue the update. -/
structure Updated (count : Nat) (update : RollbackIssue → RollbackIssue) (storage next : Storage) :
    Prop where
  faults : next.faults = storage.faults
  calls_ge : storage.calls ≤ next.calls
  calls_le : next.calls ≤ storage.calls + count
  size : next.rollbackIssues.size = storage.rollbackIssues.size
  issues : ∀ id : RollbackIssueId, next.rollbackIssues[id]? = (storage.rollbackIssues[id]?).map update

section Updated

variable {count count' : Nat} {update update' : RollbackIssue → RollbackIssue} {storage middle next : Storage}

theorem Updated.quiet (h : Updated count update storage next) (hquiet : storage.QuietFor (count + count')) :
    next.QuietFor count' :=
  hquiet.after h.faults h.calls_ge (by have hle := h.calls_le; omega)

theorem Updated.trans (h : Updated count update storage middle) (h' : Updated count' update' middle next) :
    Updated (count + count') (update' ∘ update) storage next := by
  have hge := h.calls_ge
  have hle := h.calls_le
  have hge' := h'.calls_ge
  have hle' := h'.calls_le
  refine ⟨h'.faults.trans h.faults, by omega, by omega, h'.size.trans h.size, fun id => ?_⟩
  rw [h'.issues, h.issues, Option.map_map]

theorem Updated.issuesValid (h : Updated count update storage next) (hvalid : storage.IssuesValid paqus)
    (hupdate : ∀ issue, validateRollbackIssue paqus (update issue) none =
      validateRollbackIssue paqus issue none ∧ (update issue).id = issue.id) :
    next.IssuesValid paqus := by
  intro id found hfound
  rw [h.issues] at hfound
  obtain ⟨issue, hissue, rfl⟩ := Option.map_eq_some_iff.mp hfound
  obtain ⟨hok, hid⟩ := hvalid id issue hissue
  obtain ⟨hsame, hsame'⟩ := hupdate issue
  exact ⟨hsame.trans hok, hsame'.trans hid⟩

end Updated

section

variable (hvalid : storage.IssuesValid paqus)

include hvalid

theorem loadRollbackIssue_quiet (hquiet : storage.faults storage.calls = none) (id : RollbackIssueId) :
    loadRollbackIssue paqus id storage =
      .ok storage.rollbackIssues[id]? { storage with calls := storage.calls + 1 } := by
  unfold loadRollbackIssue
  rw [bind_ok (databaseCall_quiet hquiet), get_bind]
  cases hfound : storage.rollbackIssues[id]? with
  | none => rfl
  | some issue =>
    obtain ⟨hissue, rfl⟩ := hvalid id issue hfound
    simp only [validateRollbackIssue_self hissue, liftExcept_ok]
    rfl

theorem loadRollbackIssues_quiet (hquiet : storage.faults storage.calls = none) :
    loadRollbackIssues paqus storage =
      .ok ((storage.rollbackIssues.toList.map Prod.snd).insertionSort issueLe)
        { storage with calls := storage.calls + 1 } := by
  have hstored : validateStoredIssues paqus storage.rollbackIssues.toList = .ok () :=
    validateStoredIssues_ok fun entry he =>
      hvalid _ _ (ExtTreeMap.mem_toList_iff_getElem?_eq_some.mp he)
  unfold loadRollbackIssues
  rw [bind_ok (databaseCall_quiet hquiet), get_bind]
  simp only [hstored, liftExcept_ok]
  rfl

theorem mem_loadedIssues :
    issue ∈ (storage.rollbackIssues.toList.map Prod.snd).insertionSort issueLe ↔
      storage.rollbackIssues[issue.id]? = some issue := by
  rw [List.mem_insertionSort, List.mem_map]
  constructor
  · rintro ⟨⟨id, found⟩, hmem, rfl⟩
    have hfound := ExtTreeMap.mem_toList_iff_getElem?_eq_some.mp hmem
    obtain ⟨_, rfl⟩ := hvalid id found hfound
    exact hfound
  · intro hfound
    exact ⟨(issue.id, issue), ExtTreeMap.mem_toList_iff_getElem?_eq_some.mpr hfound, rfl⟩

end

theorem length_loadedIssues (storage : Storage) :
    ((storage.rollbackIssues.toList.map Prod.snd).insertionSort issueLe).length =
      storage.rollbackIssues.size := by
  rw [List.length_insertionSort, List.length_map, ExtTreeMap.length_toList]

end PaqusNetwork.Storage
