import Mathlib.Algebra.GroupWithZero.Nat
import Mathlib.Algebra.Order.BigOperators.Group.List
import Mathlib.Algebra.Order.Group.Nat

namespace PaqusNetwork.Quantile

variable {α : Type} [LinearOrder α] {entries : List (α × Nat)}

def weight (keep : α → Bool) (entries : List (α × Nat)) : Nat :=
  (entries.map fun entry => if keep entry.1 then entry.2 else 0).sum

def total (entries : List (α × Nat)) : Nat := (entries.map Prod.snd).sum

def atMost (entries : List (α × Nat)) (value : α) : Nat := weight (· ≤ value) entries

def atLeast (entries : List (α × Nat)) (value : α) : Nat := weight (value ≤ ·) entries

/-- The least value of an entry at which the share is reached from below. -/
structure Lower (percent : Nat) (entries : List (α × Nat)) (value : α) : Prop where
  mem : ∃ entry ∈ entries, entry.1 = value
  reaches : percent * total entries ≤ 100 * atMost entries value
  least : ∀ entry ∈ entries, percent * total entries ≤ 100 * atMost entries entry.1 → value ≤ entry.1

/-- The greatest value of an entry at which the share is reached from above. -/
structure Upper (percent : Nat) (entries : List (α × Nat)) (value : α) : Prop where
  mem : ∃ entry ∈ entries, entry.1 = value
  reaches : percent * total entries ≤ 100 * atLeast entries value
  greatest : ∀ entry ∈ entries, percent * total entries ≤ 100 * atLeast entries entry.1 → entry.1 ≤ value

section Weights

omit [LinearOrder α]

variable (keep : α → Bool)

@[simp] theorem weight_cons (entry : α × Nat) (rest : List (α × Nat)) :
    weight keep (entry :: rest) = (if keep entry.1 then entry.2 else 0) + weight keep rest := by
  simp [weight]

@[simp] theorem total_cons (entry : α × Nat) (rest : List (α × Nat)) :
    total (entry :: rest) = entry.2 + total rest := by
  simp [total]

theorem weight_append (left right : List (α × Nat)) :
    weight keep (left ++ right) = weight keep left + weight keep right := by
  simp [weight]

theorem weight_le_total : weight keep entries ≤ total entries := by
  induction entries with
  | nil => exact Nat.le_refl _
  | cons entry rest ih =>
    rw [weight_cons, total_cons]
    split <;> omega

variable {keep : α → Bool}

theorem weight_all (h : ∀ entry ∈ entries, keep entry.1 = true) : weight keep entries = total entries := by
  induction entries with
  | nil => rfl
  | cons entry rest ih =>
    rw [weight_cons, total_cons, if_pos (h entry List.mem_cons_self),
      ih fun other hother => h other (List.mem_cons_of_mem _ hother)]

theorem weight_none (h : ∀ entry ∈ entries, keep entry.1 = false) : weight keep entries = 0 := by
  induction entries with
  | nil => rfl
  | cons entry rest ih =>
    rw [weight_cons, h entry List.mem_cons_self, ih fun other hother => h other (List.mem_cons_of_mem _ hother)]
    rfl

theorem weight_add_le {left right : α → Bool} (h : ∀ value, left value = true → right value = false) :
    weight left entries + weight right entries ≤ total entries := by
  induction entries with
  | nil => exact Nat.le_refl _
  | cons entry rest ih =>
    rw [weight_cons, weight_cons, total_cons]
    cases hleft : left entry.1 with
    | false =>
      simp only [Bool.false_eq_true, if_false]
      split <;> omega
    | true =>
      simp only [h entry.1 hleft, Bool.false_eq_true, if_true, if_false]
      omega

variable {left right : List (α × Nat)}

theorem weight_perm (h : left.Perm right) : weight keep left = weight keep right := (h.map _).sum_nat

theorem total_perm (h : left.Perm right) : total left = total right := (h.map _).sum_nat

end Weights

variable {percent : Nat} {value : α}

theorem Upper.perm {others : List (α × Nat)} (h : Upper percent entries value) (hperm : entries.Perm others) :
    Upper percent others value := by
  have hweight : ∀ value, atLeast others value = atLeast entries value := fun value => (weight_perm hperm).symm
  obtain ⟨entry, hentry, hvalue⟩ := h.mem
  refine ⟨⟨entry, hperm.mem_iff.mp hentry, hvalue⟩, ?_, fun other hother hreached => ?_⟩
  · rw [hweight, ← total_perm hperm]
    exact h.reaches
  · rw [hweight, ← total_perm hperm] at hreached
    exact h.greatest other (hperm.mem_iff.mpr hother) hreached

theorem atMost_add_atLeast_le {low high : α} (h : low < high) :
    atMost entries low + atLeast entries high ≤ total entries := by
  refine weight_add_le fun value hvalue => ?_
  simp only [decide_eq_true_eq, decide_eq_false_iff_not, not_le] at hvalue ⊢
  exact lt_of_le_of_lt hvalue h

theorem Lower.mono {more : Nat} {other : α} (h : Lower percent entries value) (h' : Lower more entries other)
    (hle : percent ≤ more) : value ≤ other := by
  obtain ⟨entry, hentry, rfl⟩ := h'.mem
  exact h.least entry hentry ((Nat.mul_le_mul_right _ hle).trans h'.reaches)

/-- Where at most a tenth of the weight is on each side of a value, every share in between is reached there.
-/
theorem Upper.lower_of_middle {middle : α} (h : Upper percent entries value) (hpositive : 0 < total entries)
    (hmem : ∃ entry ∈ entries, entry.1 = middle) (hbelow : 90 * total entries ≤ 100 * atMost entries middle)
    (habove : 90 * total entries ≤ 100 * atLeast entries middle) (hmin : 10 < percent) (hmax : percent ≤ 90) :
    Lower percent entries value := by
  have hshare : percent * total entries ≤ 90 * total entries := Nat.mul_le_mul_right _ hmax
  have hmore : 11 * total entries ≤ percent * total entries := Nat.mul_le_mul_right _ hmin
  obtain ⟨entry, hentry, rfl⟩ := hmem
  have hvalue : value = entry.1 := by
    refine le_antisymm (not_lt.mp fun hlt => ?_) (h.greatest entry hentry (hshare.trans habove))
    have hsum : atMost entries entry.1 + atLeast entries value ≤ total entries := atMost_add_atLeast_le hlt
    have hreaches := h.reaches
    omega
  rw [hvalue]
  refine ⟨⟨entry, hentry, rfl⟩, hshare.trans hbelow, fun other hother hreached => not_lt.mp fun hlt => ?_⟩
  have hsum : atMost entries other.1 + atLeast entries entry.1 ≤ total entries := atMost_add_atLeast_le hlt
  omega

/-- In a falling list the entry at which the weights before it add up to the share reaches the share from
above. -/
theorem Upper.of_split {earlier later : List (α × Nat)} {entry : α × Nat}
    (hsorted : (earlier ++ entry :: later).Pairwise fun left right => right.1 ≤ left.1)
    (hbefore : 100 * total earlier < percent * total (earlier ++ entry :: later))
    (hreached : percent * total (earlier ++ entry :: later) ≤ 100 * (total earlier + entry.2)) :
    Upper percent (earlier ++ entry :: later) entry.1 := by
  obtain ⟨_, hrest, hcross⟩ := List.pairwise_append.mp hsorted
  have hafter := (List.pairwise_cons.mp hrest).1
  refine ⟨⟨entry, by simp, rfl⟩, ?_, fun other hother hshare => not_lt.mp fun hlt => ?_⟩
  · have hall : weight (fun value => decide (entry.1 ≤ value)) earlier = total earlier :=
      weight_all fun other hother => decide_eq_true (hcross other hother entry List.mem_cons_self)
    have hatLeast : total earlier + entry.2 ≤ atLeast (earlier ++ entry :: later) entry.1 := by
      rw [atLeast, weight_append, hall, weight_cons]
      simp
    omega
  · have hnone : weight (fun value => decide (other.1 ≤ value)) (entry :: later) = 0 := by
      refine weight_none fun third hthird => decide_eq_false (not_le.mpr ?_)
      rcases List.mem_cons.mp hthird with rfl | hlater
      · exact hlt
      · exact lt_of_le_of_lt (hafter third hlater) hlt
    have hatLeast : atLeast (earlier ++ entry :: later) other.1 ≤ total earlier := by
      rw [atLeast, weight_append, hnone, Nat.add_zero]
      exact weight_le_total _
    omega

end PaqusNetwork.Quantile
