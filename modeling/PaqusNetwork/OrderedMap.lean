import Std.Data.ExtTreeMap
import Mathlib.Algebra.GroupWithZero.Nat
import Mathlib.Data.List.Perm.Basic
import Mathlib.Order.Defs.LinearOrder

namespace OrderedMap

open Std

set_option linter.unusedSectionVars false

variable {α β κ : Type} [Ord α] [TransOrd α] [LawfulEqOrd α] [DecidableEq α] [Ord κ] [TransOrd κ]
  [LawfulEqOrd κ] [DecidableEq κ]

theorem getElem?_insert (map : ExtTreeMap α β) (key : α) (value : β) (key' : α) :
    (map.insert key value)[key']? = if key = key' then some value else map[key']? := by
  rw [ExtTreeMap.getElem?_insert]
  simp only [Std.compare_eq_iff_eq]

theorem getElem?_erase (map : ExtTreeMap α β) (key key' : α) :
    (map.erase key)[key']? = if key = key' then none else map[key']? := by
  rw [ExtTreeMap.getElem?_erase]
  simp only [Std.compare_eq_iff_eq]

theorem getElem?_foldl_erase (keys : List α) (map : ExtTreeMap α β) (key : α) :
    (keys.foldl (·.erase ·) map)[key]? = if key ∈ keys then none else map[key]? := by
  induction keys generalizing map with
  | nil => simp
  | cons first rest ih =>
    rw [List.foldl_cons, ih, getElem?_erase]
    by_cases hrest : key ∈ rest
    · simp [hrest]
    · by_cases heq : first = key
      · simp [heq]
      · simp [hrest, heq, Ne.symm heq]

variable {map : ExtTreeMap α β} {key : α}

theorem mem_foldl_erase {keys : List α} : key ∈ keys.foldl (·.erase ·) map ↔ key ∉ keys ∧ key ∈ map := by
  rw [← ExtTreeMap.isSome_getElem?_iff_mem, getElem?_foldl_erase]
  by_cases hmem : key ∈ keys
  · simp [hmem]
  · rw [if_neg hmem, ExtTreeMap.isSome_getElem?_iff_mem]
    exact (and_iff_right hmem).symm

theorem nodup_toList (map : ExtTreeMap α β) : map.toList.Nodup := by
  refine ExtTreeMap.distinct_keys_toList.imp fun {a b} hne he => hne ?_
  rw [he]
  exact ReflOrd.compare_self

variable {value : β}

theorem toList_insert_perm (h : map[key]? = none) :
    (map.insert key value).toList.Perm ((key, value) :: map.toList) := by
  have hnew : (key, value) ∉ map.toList := by
    rw [ExtTreeMap.mem_toList_iff_getElem?_eq_some, h]
    simp
  have hnodup : ((key, value) :: map.toList).Nodup := List.nodup_cons.mpr ⟨hnew, nodup_toList map⟩
  rw [List.perm_ext_iff_of_nodup (nodup_toList _) hnodup]
  rintro ⟨key', value'⟩
  rw [List.mem_cons, ExtTreeMap.mem_toList_iff_getElem?_eq_some,
    ExtTreeMap.mem_toList_iff_getElem?_eq_some, getElem?_insert]
  by_cases he : key = key'
  · subst he
    simp [h, eq_comm]
  · simp [he, Ne.symm he]

theorem toList_perm_erase (h : map[key]? = some value) : map.toList.Perm ((key, value) :: (map.erase key).toList) := by
  have hgone : (map.erase key)[key]? = none := by simp
  have hback : (map.erase key).insert key value = map := by
    refine ExtTreeMap.ext_getElem? fun key' => ?_
    rw [getElem?_insert, getElem?_erase]
    by_cases he : key = key'
    · rw [if_pos he, ← he, h]
    · rw [if_neg he, if_neg he]
  have hperm : ((map.erase key).insert key value).toList.Perm ((key, value) :: (map.erase key).toList) :=
    toList_insert_perm hgone
  rwa [hback] at hperm

private theorem entry_asymm (a b : α × β) (hlt : compare a.1 b.1 = .lt) (hgt : compare b.1 a.1 = .lt) : a = b := by
  have hswap : compare b.1 a.1 = (compare a.1 b.1).swap := OrientedOrd.eq_swap
  rw [hswap, hlt] at hgt
  cases hgt

theorem toList_insert_last (h : ∀ entry ∈ map.toList, compare entry.1 key = .lt) :
    (map.insert key value).toList = map.toList ++ [(key, value)] := by
  have hnew : map[key]? = none := by
    refine Option.eq_none_iff_forall_ne_some.mpr fun value' hvalue => ?_
    have hself := h (key, value') (ExtTreeMap.mem_toList_iff_getElem?_eq_some.mpr hvalue)
    rw [ReflOrd.compare_self] at hself
    cases hself
  have hsorted : (map.toList ++ [(key, value)]).Pairwise fun a b => compare a.1 b.1 = .lt := by
    refine List.pairwise_append.mpr ⟨ExtTreeMap.ordered_keys_toList, List.pairwise_singleton _ _, ?_⟩
    intro entry hentry last hlast
    rw [List.mem_singleton.mp hlast]
    exact h entry hentry
  exact List.Perm.eq_of_pairwise (fun a b _ _ => entry_asymm a b) ExtTreeMap.ordered_keys_toList hsorted
    ((toList_insert_perm hnew).trans (List.perm_append_singleton _ _).symm)

theorem toList_eq_filter {map' : ExtTreeMap α β} {kept : α → Bool}
    (h : ∀ key, map'[key]? = if kept key then map[key]? else none) :
    map'.toList = map.toList.filter fun entry => kept entry.1 := by
  have hsorted : (map.toList.filter fun entry => kept entry.1).Pairwise
      fun a b => compare a.1 b.1 = .lt := ExtTreeMap.ordered_keys_toList.filter _
  refine List.Perm.eq_of_pairwise (fun a b _ _ => entry_asymm a b) ExtTreeMap.ordered_keys_toList hsorted ?_
  · rw [List.perm_ext_iff_of_nodup (nodup_toList _) ((nodup_toList _).filter _)]
    rintro ⟨key, value⟩
    rw [List.mem_filter, ExtTreeMap.mem_toList_iff_getElem?_eq_some, ExtTreeMap.mem_toList_iff_getElem?_eq_some, h key]
    by_cases hkept : kept key = true
    · simp [hkept]
    · simp [hkept]

def total (weight : β → Nat) (map : ExtTreeMap α β) : Nat := (map.toList.map fun entry => weight entry.2).sum

variable (weight : β → Nat)

@[simp] theorem total_empty : total weight (∅ : ExtTreeMap α β) = 0 := by
  simp [total, ExtTreeMap.toList_eq_nil_iff.mpr rfl]

theorem total_insert (h : map[key]? = none) :
    total weight (map.insert key value) = weight value + total weight map := by
  have hperm : (map.insert key value).toList.Perm ((key, value) :: map.toList) := toList_insert_perm h
  have hsum := (hperm.map fun entry => weight entry.2).sum_nat
  simpa [total] using hsum

theorem total_erase (h : map[key]? = some value) : total weight map = weight value + total weight (map.erase key) := by
  have hsum := ((toList_perm_erase h).map fun entry => weight entry.2).sum_nat
  simpa [total] using hsum

/-- The index leads from each key of a value to the owner of the value. -/
def Indexes (keys : β → List κ) (index : ExtTreeMap κ α) (map : ExtTreeMap α β) : Prop :=
  ∀ (key : κ) (owner : α), index[key]? = some owner ↔ ∃ value, map[owner]? = some value ∧ key ∈ keys value

theorem Indexes.empty (keys : β → List κ) : Indexes keys (∅ : ExtTreeMap κ α) (∅ : ExtTreeMap α β) := by
  intro key owner
  simp

theorem getElem?_foldl_write {ι : Type} {key : ι → α} {value : ι → β} {target : α → Option β}
    {items : List ι} (h : ∀ item ∈ items, target (key item) = some (value item))
    (map : ExtTreeMap α β) (key' : α) :
    (items.foldl (fun map item => map.insert (key item) (value item)) map)[key']? =
      if key' ∈ items.map key then target key' else map[key']? := by
  induction items generalizing map with
  | nil => simp
  | cons first rest ih =>
    rw [List.foldl_cons, ih fun item hi => h item (List.mem_cons_of_mem _ hi), getElem?_insert, List.map_cons]
    by_cases hrest : key' ∈ rest.map key
    · simp [hrest]
    · by_cases he : key first = key'
      · simp [← he, h first (List.mem_cons_self ..)]
      · simp [hrest, he, Ne.symm he]

theorem getElem?_foldl_insert {γ : Type} (keys : List κ) (owner : γ) (index : ExtTreeMap κ γ) (key : κ) :
    (keys.foldl (fun index key => index.insert key owner) index)[key]? =
      if key ∈ keys then some owner else index[key]? := by
  have hwrite := @getElem?_foldl_write κ γ _ _ _ _ κ id (fun _ => owner) (fun _ => some owner) keys
    (fun _ _ => rfl) index key
  rwa [List.map_id] at hwrite

theorem getElem?_foldl_release (keys : List κ) (owner : α) (index : ExtTreeMap κ α) (key : κ) :
    (keys.foldl (fun index key => if index[key]? = some owner then index.erase key else index)
      index)[key]? = if key ∈ keys ∧ index[key]? = some owner then none else index[key]? := by
  induction keys generalizing index with
  | nil => simp
  | cons first rest ih =>
    rw [List.foldl_cons, ih]
    by_cases hfirst : index[first]? = some owner
    · rw [if_pos hfirst, getElem?_erase]
      by_cases he : first = key
      · subst he
        simp [hfirst]
      · simp [he, Ne.symm he]
    · rw [if_neg hfirst]
      by_cases he : first = key
      · subst he
        simp [hfirst]
      · simp [Ne.symm he]

variable {keys : β → List κ} {index : ExtTreeMap κ α} {owner : α}

theorem Indexes.owner_unique {key : κ} {owner' : α} {value' : β} (h : Indexes keys index map)
    (hfound : map[owner]? = some value) (hkey : key ∈ keys value) (hfound' : map[owner']? = some value')
    (hkey' : key ∈ keys value') : owner = owner' := by
  have hindex := (h key owner).mpr ⟨value, hfound, hkey⟩
  rw [(h key owner').mpr ⟨value', hfound', hkey'⟩] at hindex
  exact (Option.some.inj hindex).symm

theorem Indexes.insert (h : Indexes keys index map) (hfresh : map[owner]? = none)
    (hfree : ∀ key ∈ keys value, index[key]? = none) :
    Indexes keys ((keys value).foldl (fun index key => index.insert key owner) index)
      (map.insert owner value) := by
  intro key owner'
  rw [getElem?_foldl_insert, getElem?_insert]
  by_cases hkey : key ∈ keys value
  · rw [if_pos hkey]
    by_cases he : owner = owner'
    · simp [he, hkey]
    · have hno : ¬∃ value', map[owner']? = some value' ∧ key ∈ keys value' := by
        rw [← h key owner', hfree key hkey]
        simp
      simpa [he] using hno
  · rw [if_neg hkey, h key owner']
    by_cases he : owner = owner'
    · subst he
      simp [hfresh, hkey]
    · simp [he]

theorem Indexes.erase {index' : ExtTreeMap κ α} (h : Indexes keys index map) (hfound : map[owner]? = some value)
    (hindex : ∀ key, index'[key]? = if key ∈ keys value then none else index[key]?) :
    Indexes keys index' (map.erase owner) := by
  intro key owner'
  rw [hindex key, getElem?_erase]
  by_cases hkey : key ∈ keys value
  · have howner : index[key]? = some owner := (h key owner).mpr ⟨value, hfound, hkey⟩
    rw [if_pos hkey]
    by_cases he : owner = owner'
    · simp [he]
    · have hno : ¬∃ value', map[owner']? = some value' ∧ key ∈ keys value' := by
        rw [← h key owner', howner]
        simpa using he
      simpa [he] using hno
  · rw [if_neg hkey, h key owner']
    by_cases he : owner = owner'
    · subst he
      simp [hfound, hkey]
    · simp [he]

/-- The entries of the items; an item without one is passed over, and a key that comes again is an error. -/
def collect {ε ι : Type} (entry : ι → Except ε (Option (α × β))) (repeated : ε) :
    List ι → ExtTreeMap α β → Except ε (ExtTreeMap α β)
  | [], map => .ok map
  | item :: rest, map =>
    match entry item with
    | .error error => .error error
    | .ok none => collect entry repeated rest map
    | .ok (some (key, value)) =>
      if map.contains key then .error repeated else collect entry repeated rest (map.insert key value)

section Collect

variable {ε ι : Type} {entry : ι → Except ε (Option (α × β))} {repeated : ε} {item : ι} {items : List ι}
  {map result : ExtTreeMap α β}

/-- Every item can be read, and no two items have an entry with one key, nor is one in the map. -/
structure Collectable (entry : ι → Except ε (Option (α × β))) (items : List ι) (map : ExtTreeMap α β) :
    Prop where
  read : ∀ item ∈ items, ∃ found, entry item = .ok found
  distinct : items.Pairwise fun left right => ∀ key value value', entry left = .ok (some (key, value)) →
    entry right ≠ .ok (some (key, value'))
  free : ∀ item ∈ items, ∀ key value, entry item = .ok (some (key, value)) → map[key]? = none

theorem collectable_cons_none (h : entry item = .ok none) :
    Collectable entry (item :: items) map ↔ Collectable entry items map := by
  constructor
  · rintro ⟨hread, hdistinct, hfree⟩
    exact ⟨(List.forall_mem_cons.mp hread).2, (List.pairwise_cons.mp hdistinct).2, (List.forall_mem_cons.mp hfree).2⟩
  · rintro ⟨hread, hdistinct, hfree⟩
    refine ⟨List.forall_mem_cons.mpr ⟨⟨_, h⟩, hread⟩, List.pairwise_cons.mpr ⟨?_, hdistinct⟩,
      List.forall_mem_cons.mpr ⟨?_, hfree⟩⟩ <;> simp [h]

theorem collectable_cons_some (h : entry item = .ok (some (key, value))) (hnew : map[key]? = none) :
    Collectable entry (item :: items) map ↔ Collectable entry items (map.insert key value) := by
  constructor
  · rintro ⟨hread, hdistinct, hfree⟩
    refine ⟨(List.forall_mem_cons.mp hread).2, (List.pairwise_cons.mp hdistinct).2, ?_⟩
    intro other hother key' value' hentry
    have hne : key ≠ key' := by
      rintro rfl
      exact (List.pairwise_cons.mp hdistinct).1 other hother _ _ _ h hentry
    rw [getElem?_insert, if_neg hne]
    exact hfree other (List.mem_cons_of_mem _ hother) _ _ hentry
  · rintro ⟨hread, hdistinct, hfree⟩
    have hother : ∀ other ∈ items, ∀ key' value', entry other = .ok (some (key', value')) →
        key ≠ key' ∧ map[key']? = none := by
      intro other hother key' value' hentry
      have hnone := hfree other hother key' value' hentry
      rw [getElem?_insert] at hnone
      split at hnone
      · cases hnone
      next hne => exact ⟨hne, hnone⟩
    refine ⟨List.forall_mem_cons.mpr ⟨⟨_, h⟩, hread⟩, List.pairwise_cons.mpr ⟨?_, hdistinct⟩,
      List.forall_mem_cons.mpr ⟨?_, fun other ho key value he => (hother other ho key value he).2⟩⟩
    · intro other ho key' value' value'' hentry hentry'
      cases h.symm.trans hentry
      exact (hother other ho _ _ hentry').1 rfl
    · intro key' value' hentry
      cases h.symm.trans hentry
      exact hnew

/-- The entries are collected exactly when they can be, and then each is found under its key. -/
theorem collect_spec (entry : ι → Except ε (Option (α × β))) (repeated : ε) (items : List ι) (map : ExtTreeMap α β) :
    match collect entry repeated items map with
    | .ok result => Collectable entry items map ∧ ∀ key value, result[key]? = some value ↔
        map[key]? = some value ∨ ∃ item ∈ items, entry item = .ok (some (key, value))
    | .error _ => ¬Collectable entry items map := by
  induction items generalizing map with
  | nil => exact ⟨⟨by simp, .nil, by simp⟩, by simp⟩
  | cons item rest ih =>
    unfold collect
    cases hentry : entry item with
    | error error =>
      intro h
      obtain ⟨found, hfound⟩ := h.read item (List.mem_cons_self ..)
      cases hentry.symm.trans hfound
    | ok found =>
      cases found with
      | none => simpa [collectable_cons_none hentry, hentry] using ih map
      | some pair =>
        obtain ⟨key, value⟩ := pair
        dsimp only
        rw [ExtTreeMap.contains_eq_isSome_getElem?]
        cases hnew : map[key]? with
        | some found =>
          intro h
          cases hnew.symm.trans (h.free item (List.mem_cons_self ..) key value hentry)
        | none =>
          rw [collectable_cons_some hentry hnew]
          have hget : ∀ key' value', (map.insert key value)[key']? = some value' ↔
              map[key']? = some value' ∨ entry item = .ok (some (key', value')) := by
            intro key' value'
            rw [getElem?_insert, hentry]
            by_cases heq : key = key'
            · subst heq
              simp [hnew]
            · simp [heq]
          simpa only [Option.isSome_none, Bool.false_eq_true, if_false, List.exists_mem_cons_iff, ← or_assoc,
            ← hget] using ih (map.insert key value)

theorem collect_eq_ok (h : collect entry repeated items map = .ok result) : Collectable entry items map ∧
    ∀ key value, result[key]? = some value ↔
      map[key]? = some value ∨ ∃ item ∈ items, entry item = .ok (some (key, value)) := by
  have hspec := collect_spec entry repeated items map
  rwa [h] at hspec

theorem Collectable.collect (h : Collectable entry items map) (repeated : ε) :
    ∃ result, collect entry repeated items map = .ok result := by
  have hspec := collect_spec entry repeated items map
  split at hspec
  next result _ => exact ⟨result, by assumption⟩
  next => exact absurd h hspec

end Collect
end OrderedMap
