import Mathlib.Data.List.Sort

namespace PaqusNetwork.Sorting

variable {α : Type} {le : α → α → Prop} [DecidableRel le] [Std.Total le] [IsTrans α le]

theorem insertionSort_congr {left right : List α} (hperm : left.Perm right)
    (hanti : ∀ a ∈ left, ∀ b ∈ left, le a b → le b a → a = b) :
    left.insertionSort le = right.insertionSort le := by
  refine List.Perm.eq_of_pairwise (fun a b ha hb hle hge => ?_) (List.pairwise_insertionSort le left)
    (List.pairwise_insertionSort le right)
    ((List.perm_insertionSort le left).trans (hperm.trans (List.perm_insertionSort le right).symm))
  rw [List.mem_insertionSort] at ha hb
  exact hanti a ha b (hperm.mem_iff.mpr hb) hle hge

/-- A list in strictly increasing order is what every order of its items is sorted to. -/
theorem insertionSort_eq {items sorted : List α} (hperm : items.Perm sorted)
    (hsorted : sorted.Pairwise fun a b => le a b ∧ ¬le b a) : items.insertionSort le = sorted := by
  let decided : α → α → Prop := fun a b => a = b ∨ (le a b ∧ ¬le b a) ∨ (le b a ∧ ¬le a b)
  have hforth : sorted.Pairwise decided := hsorted.imp fun h => .inr (.inl h)
  have hback : sorted.Pairwise (flip decided) := hsorted.imp fun h => Or.inr (Or.inr h)
  have hself : ∀ a ∈ sorted, decided a a := fun _ _ => .inl rfl
  have hdecided : ∀ {a b}, a ∈ sorted → b ∈ sorted → decided a b := fun ha hb =>
    List.Pairwise.forall_of_forall_of_flip hself hforth hback ha hb
  have hanti : ∀ a ∈ items, ∀ b ∈ items, le a b → le b a → a = b := by
    intro a ha b hb hle hge
    rcases hdecided (hperm.mem_iff.mp ha) (hperm.mem_iff.mp hb) with heq | h | h
    · exact heq
    · exact absurd hge h.2
    · exact absurd hle h.2
  rw [insertionSort_congr hperm hanti]
  exact List.Pairwise.insertionSort_eq (hsorted.imp And.left)

end PaqusNetwork.Sorting
