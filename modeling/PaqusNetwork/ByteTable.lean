import PaqusNetwork.OrderedMap
import PaqusNetwork.Sorting
import Mathlib.Data.List.Infix

namespace PaqusNetwork.ByteTable

open Std

section Order

variable {α : Type} [Ord α] [TransOrd α] [LawfulEqOrd α]

omit [TransOrd α] [LawfulEqOrd α] in
theorem compare_cons_cons (a b : α) (left right : List α) :
    compare (a :: left) (b :: right) = (compare a b).then (compare left right) := by
  simp [List.compare_eq_compareLex]

omit [Std.LawfulEqOrd α] in
/-- A key that starts with the bytes is not smaller than they are. -/
theorem compare_ne_lt_of_starts {start key : List α} (h : start <+: key) : compare key start ≠ .lt := by
  induction start generalizing key with
  | nil => cases key <;> simp
  | cons a start ih =>
    obtain ⟨rest, rfl⟩ := h
    rw [List.cons_append, compare_cons_cons, Std.ReflOrd.compare_self, Ordering.eq_then]
    exact ih ⟨rest, rfl⟩

omit [Std.TransOrd α] in
/-- The keys that start with the bytes lie next to each other. -/
theorem starts_of_between {start key later : List α} (hle : compare key start ≠ .lt)
    (hlt : compare key later = .lt) (hlater : start <+: later) : start <+: key := by
  induction start generalizing key later with
  | nil => exact List.nil_prefix
  | cons a start ih =>
    obtain ⟨rest, rfl⟩ := hlater
    cases key with
    | nil => exact absurd (by simp) hle
    | cons b key =>
      rw [List.cons_append, compare_cons_cons] at hlt
      rw [compare_cons_cons] at hle
      cases hfirst : compare b a with
      | lt => rw [hfirst] at hle; exact absurd rfl hle
      | gt => rw [hfirst] at hlt; cases hlt
      | eq =>
        cases Std.LawfulEqOrd.eq_of_compare hfirst
        rw [hfirst, Ordering.eq_then] at hlt hle
        exact (List.prefix_cons_inj a).mpr (ih hle hlt ⟨rest, rfl⟩)

end Order

section Scan

variable {α β : Type} [Ord α] [DecidableEq α]

/-- Go through the entries in the order of their keys: skip those before the bytes, stop at the first
key after them that does not start with them. -/
def scan (start : List α) : List (List α × β) → List β
  | [] => []
  | (key, value) :: rest =>
    if compare key start = .lt then scan start rest
    else if start.isPrefixOf key then value :: scan start rest
    else []

variable [TransOrd α] [LawfulEqOrd α]

/-- The scan finds the entries whose keys start with the bytes, and no others. -/
theorem scan_eq_filter {start : List α} {entries : List (List α × β)}
    (hsorted : entries.Pairwise fun a b => compare a.1 b.1 = .lt) :
    scan start entries = (entries.filter fun entry => start.isPrefixOf entry.1).map Prod.snd := by
  induction entries with
  | nil => rfl
  | cons entry rest ih =>
    obtain ⟨key, value⟩ := entry
    obtain ⟨hfirst, hrest⟩ := List.pairwise_cons.mp hsorted
    unfold scan
    rw [List.filter_cons]
    by_cases hbefore : compare key start = .lt
    · have hother : ¬start.isPrefixOf key = true := fun h =>
        compare_ne_lt_of_starts (List.isPrefixOf_iff_prefix.mp h) hbefore
      rw [if_pos hbefore, if_neg hother, ih hrest]
    · rw [if_neg hbefore]
      by_cases hstarts : start.isPrefixOf key = true
      · rw [if_pos hstarts, if_pos hstarts, List.map_cons, ih hrest]
      · rw [if_neg hstarts, if_neg hstarts, List.filter_eq_nil_iff.mpr, List.map_nil]
        intro later hlater hlaterStarts
        have hbetween := starts_of_between hbefore (hfirst later hlater) (List.isPrefixOf_iff_prefix.mp hlaterStarts)
        exact hstarts (List.isPrefixOf_iff_prefix.mpr hbetween)

end Scan

section Writes

variable {κ β : Type} [Ord κ] [Std.TransOrd κ] [Std.LawfulEqOrd κ]

def writeAll (writes : List (κ × β)) (table : ExtTreeMap κ β) : ExtTreeMap κ β :=
  writes.foldl (fun table write => table.insert write.1 write.2) table

omit [Std.LawfulEqOrd κ] in
theorem writeAll_append (first second : List (κ × β)) (table : ExtTreeMap κ β) :
    writeAll (first ++ second) table = writeAll second (writeAll first table) :=
  List.foldl_append

/-- Equal keys come with equal values. -/
def Functional (writes : List (κ × β)) : Prop := ∀ left ∈ writes, ∀ right ∈ writes, left.1 = right.1 → left.2 = right.2

/-- Where equal keys come with equal values, exactly the written entries are in the table. -/
theorem getElem?_writeAll {writes : List (κ × β)} (h : Functional writes) (key : κ) (value : β) :
    (writeAll writes ∅)[key]? = some value ↔ (key, value) ∈ writes := by
  classical
  induction writes using List.reverseRecOn with
  | nil => simp [writeAll]
  | append_singleton earlier last ih =>
    have hearlier := ih fun left hleft right hright => h left (by simp [hleft]) right (by simp [hright])
    rw [writeAll_append]
    show ((writeAll earlier ∅).insert last.1 last.2)[key]? = some value ↔ _
    rw [OrderedMap.getElem?_insert]
    by_cases hkey : last.1 = key
    · subst hkey
      rw [if_pos rfl]
      constructor
      · rintro ⟨⟩
        simp
      · intro hmem
        exact congrArg some (h last (by simp) _ hmem rfl)
    · rw [if_neg hkey, hearlier]
      simp [Prod.ext_iff, Ne.symm hkey]

theorem writeAll_toList (table : ExtTreeMap κ β) : writeAll table.toList ∅ = table := by
  refine ExtTreeMap.ext_getElem? fun key => Option.ext fun value => ?_
  rw [getElem?_writeAll, ExtTreeMap.mem_toList_iff_getElem?_eq_some]
  rintro ⟨left, value⟩ hleft ⟨right, other⟩ hright rfl
  rw [ExtTreeMap.mem_toList_iff_getElem?_eq_some] at hleft hright
  exact Option.some.inj (hleft.symm.trans hright)

theorem writeAll_values {table : ExtTreeMap κ β} {keyOf : β → κ}
    (h : ∀ (key : κ) (value : β), table[key]? = some value → keyOf value = key) :
    (table.toList.map Prod.snd).foldl (fun written value => written.insert (keyOf value) value) ∅ = table := by
  have hentries : (table.toList.map Prod.snd).map (fun value => (keyOf value, value)) = table.toList := by
    rw [List.map_map]
    refine (List.map_congr_left fun entry hentry => ?_).trans (List.map_id _)
    exact Prod.ext (h _ _ (ExtTreeMap.mem_toList_iff_getElem?_eq_some.mp hentry)) rfl
  have hwritten := writeAll_toList table
  rw [← hentries, writeAll, List.foldl_map] at hwritten
  exact hwritten

end Writes

section Found

variable {α β : Type} [Ord α] [DecidableEq α] [TransOrd α] [LawfulEqOrd α] {start : List α}
  {writes expected : List (List α × β)} (h : Functional writes)
  (hmem : ∀ entry, entry ∈ expected ↔ entry ∈ writes ∧ start <+: entry.1)

include h hmem

/-- The scan of a table finds the written entries that start with the bytes, each key once. -/
theorem scan_writeAll_perm (hnodup : expected.Nodup) :
    (scan start (writeAll writes ∅).toList).Perm (expected.map Prod.snd) := by
  rw [scan_eq_filter ExtTreeMap.ordered_keys_toList]
  refine List.Perm.map _ ((List.perm_ext_iff_of_nodup ((OrderedMap.nodup_toList _).filter _) hnodup).mpr ?_)
  rintro ⟨key, value⟩
  rw [List.mem_filter, ExtTreeMap.mem_toList_iff_getElem?_eq_some, getElem?_writeAll h,
    List.isPrefixOf_iff_prefix, hmem]

theorem insertionSort_scan {le : β → β → Prop} [DecidableRel le] [Std.Total le] [IsTrans β le]
    (hlater : expected.Pairwise fun left right => le left.2 right.2 ∧ ¬le right.2 left.2) :
    (scan start (writeAll writes ∅).toList).insertionSort le = expected.map Prod.snd := by
  have hnodup : expected.Nodup := hlater.imp fun hle heq => by
    rw [heq] at hle
    exact hle.2 hle.1
  exact Sorting.insertionSort_eq (scan_writeAll_perm h hmem hnodup) (List.pairwise_map.mpr hlater)

end Found

end PaqusNetwork.ByteTable
