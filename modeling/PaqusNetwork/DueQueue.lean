import Mathlib.Data.List.Nodup

namespace DueQueue

variable {α : Type}

section Requests

variable [DecidableEq α]

/-- A request for an item that waits adds a time to it. -/
def request (item : α) (time : Nat) : List (α × List Nat) → List (α × List Nat)
  | [] => [(item, [time])]
  | entry :: rest =>
    if entry.1 = item then (entry.1, entry.2 ++ [time]) :: rest else entry :: request item time rest

theorem items_request (item : α) (time : Nat) (waiting : List (α × List Nat)) :
    (request item time waiting).map Prod.fst =
      if item ∈ waiting.map Prod.fst then waiting.map Prod.fst else waiting.map Prod.fst ++ [item] := by
  induction waiting with
  | nil => simp [request]
  | cons entry rest ih =>
    rw [request]
    by_cases heq : entry.1 = item
    · simp [heq]
    · have hne : item ≠ entry.1 := fun h => heq h.symm
      simp only [if_neg heq, List.map_cons, ih, List.mem_cons, hne, false_or]
      split
      next => rfl
      next => rfl

/-- What waits after a request: the item with one more time, and the others as they were. -/
theorem mem_request {item : α} {time : Nat} {waiting : List (α × List Nat)} {entry : α × List Nat}
    (honce : (waiting.map Prod.fst).Nodup) (h : entry ∈ request item time waiting) :
    (entry.1 ≠ item ∧ entry ∈ waiting) ∨ (∃ times, (item, times) ∈ waiting ∧ entry = (item, times ++ [time])) ∨
      (item ∉ waiting.map Prod.fst ∧ entry = (item, [time])) := by
  induction waiting with
  | nil => exact .inr (.inr ⟨by simp, List.mem_singleton.mp h⟩)
  | cons first rest ih =>
    have hfirst := (List.nodup_cons.mp honce).1
    have hrest := (List.nodup_cons.mp honce).2
    rw [request] at h
    split at h
    next heq =>
      rcases List.mem_cons.mp h with rfl | hmem
      · exact .inr (.inl ⟨first.2, by simp [← heq], by simp [heq]⟩)
      · refine .inl ⟨fun hitem => hfirst ?_, List.mem_cons_of_mem _ hmem⟩
        rw [heq, ← hitem]
        exact List.mem_map_of_mem hmem
    next hne =>
      rcases List.mem_cons.mp h with rfl | hmem
      · exact .inl ⟨hne, List.mem_cons_self⟩
      · rcases ih hrest hmem with ⟨hother, hold⟩ | ⟨times, hold, heq⟩ | ⟨hnew, heq⟩
        · exact .inl ⟨hother, List.mem_cons_of_mem _ hold⟩
        · exact .inr (.inl ⟨times, List.mem_cons_of_mem _ hold, heq⟩)
        · refine .inr (.inr ⟨?_, heq⟩)
          rw [List.map_cons, List.mem_cons, not_or]
          exact ⟨fun h => hne h.symm, hnew⟩

theorem exists_mem_request {item : α} {time : Nat} {waiting : List (α × List Nat)} {entry : α × List Nat}
    (h : entry ∈ waiting) : ∃ times, (entry.1, times) ∈ request item time waiting ∧ entry.2 ⊆ times := by
  induction waiting with
  | nil => cases h
  | cons first rest ih =>
    rw [request]
    rcases List.mem_cons.mp h with rfl | hmem
    · split
      next => exact ⟨entry.2 ++ [time], List.mem_cons_self, List.subset_append_left _ _⟩
      next => exact ⟨entry.2, List.mem_cons_self, fun _ h => h⟩
    · split
      next => exact ⟨entry.2, List.mem_cons_of_mem _ hmem, fun _ h => h⟩
      next =>
        obtain ⟨times, htimes, hsub⟩ := ih hmem
        exact ⟨times, List.mem_cons_of_mem _ htimes, hsub⟩

end Requests

/-- The earliest time that was asked for the item has come. -/
def due (now : Nat) (entry : α × List Nat) : Bool := entry.2.any (· ≤ now)

variable {now : Nat}

theorem map_filter_due {waiting : List (α × List Nat)} {isDue : α → Bool}
    (h : ∀ entry ∈ waiting, isDue entry.1 = due now entry) :
    (waiting.map Prod.fst).filter isDue = (waiting.filter (due now)).map Prod.fst ∧
      (waiting.map Prod.fst).filter (fun item => !isDue item) =
        (waiting.filter fun entry => !due now entry).map Prod.fst := by
  induction waiting with
  | nil => exact ⟨rfl, rfl⟩
  | cons entry rest ih =>
    obtain ⟨hdue, hkept⟩ := ih fun other hother => h other (List.mem_cons_of_mem _ hother)
    have hentry := h entry List.mem_cons_self
    rw [List.map_cons, List.filter_cons, List.filter_cons, List.filter_cons, List.filter_cons, hentry, hdue, hkept]
    cases due now entry with
    | true => exact ⟨rfl, rfl⟩
    | false => exact ⟨rfl, rfl⟩

theorem due_request [DecidableEq α] {item : α} {time : Nat} {waiting : List (α × List Nat)} :
    (waiting.filter (due now)).map Prod.fst ⊆ ((request item time waiting).filter (due now)).map Prod.fst := by
  intro found hfound
  obtain ⟨entry, hentry, rfl⟩ := List.mem_map.mp hfound
  obtain ⟨hmem, hdue⟩ := List.mem_filter.mp hentry
  obtain ⟨times, htimes, hsub⟩ := @exists_mem_request α _ item time waiting entry hmem
  obtain ⟨asked, hasked, hcome⟩ := List.any_eq_true.mp hdue
  exact List.mem_map.mpr ⟨(entry.1, times),
    List.mem_filter.mpr ⟨htimes, List.any_eq_true.mpr ⟨asked, hsub hasked, hcome⟩⟩, rfl⟩

variable {earliest : Nat}

theorem due_iff {entry : α × List Nat} (h : entry.2.min? = some earliest) :
    due now entry = decide (earliest ≤ now) := by
  obtain ⟨hmem, hle⟩ := List.min?_eq_some_iff.mp h
  rw [due, Bool.eq_iff_iff, List.any_eq_true, decide_eq_true_eq]
  constructor
  · rintro ⟨time, htime, hdue⟩
    exact Nat.le_trans (hle time htime) (of_decide_eq_true hdue)
  · intro hdue
    exact ⟨earliest, hmem, decide_eq_true hdue⟩

theorem min?_append_singleton {times : List Nat} {time : Nat} (h : times.min? = some earliest) :
    (times ++ [time]).min? = some (min earliest time) := by
  cases times with
  | nil => cases h
  | cons first rest =>
    rw [List.min?_cons'] at h
    rw [List.cons_append, List.min?_cons', List.foldl_append, Option.some.inj h]
    rfl

end DueQueue
