import Mathlib.Data.List.Basic
import Mathlib.Order.Defs.LinearOrder

namespace Forest

variable {κ ν : Type}

/-- The nodes from a key up to its root, the node of the key first. -/
inductive Path (lookup : κ → Option ν) (parent : ν → Option κ) : κ → List ν → Prop
  | root {k : κ} {n : ν} (found : lookup k = some n) (top : parent n = none) :
      Path lookup parent k [n]
  | step {k p : κ} {n : ν} {path : List ν} (found : lookup k = some n) (up : parent n = some p)
      (rest : Path lookup parent p path) : Path lookup parent k (n :: path)

/-- Keys name their nodes, and every node that is not a root has its parent one rank below. -/
structure Rooted (key : ν → κ) (parent : ν → Option κ) (rank : ν → Nat)
    (lookup : κ → Option ν) : Prop where
  key_eq : ∀ {k n}, lookup k = some n → key n = k
  root_rank : ∀ {k n}, lookup k = some n → parent n = none → rank n = 0
  parent_known : ∀ {k n p}, lookup k = some n → parent n = some p → ∃ m, lookup p = some m ∧ rank n = rank m + 1

variable {k : κ} {n m : ν} {path rest before after : List ν} {parent : ν → Option κ}
  {lookup lookup' : κ → Option ν} {key : ν → κ}

theorem Path.head (h : Path lookup parent k path) : ∃ n rest, path = n :: rest ∧ lookup k = some n := by
  cases h with
  | root found _ => exact ⟨_, _, rfl, found⟩
  | step found _ _ => exact ⟨_, _, rfl, found⟩

theorem Path.lookup_head (h : Path lookup parent k (n :: rest)) : lookup k = some n := by
  obtain ⟨m, tail, he, hm⟩ := h.head
  cases he
  exact hm

theorem Path.unique {path' : List ν} (h : Path lookup parent k path)
    (h' : Path lookup parent k path') : path = path' := by
  induction h generalizing path' with
  | root found top =>
    cases h' with
    | root found' _ => rw [found] at found'; cases found'; rfl
    | step found' up _ => rw [found] at found'; cases found'; rw [top] at up; cases up
  | step found up _ ih =>
    cases h' with
    | root found' top => rw [found] at found'; cases found'; rw [up] at top; cases top
    | step found' up' rest' =>
      rw [found] at found'
      cases found'
      rw [up] at up'
      cases up'
      rw [ih rest']

theorem Path.mono (h : Path lookup parent k path)
    (hsub : ∀ j n, lookup j = some n → lookup' j = some n) : Path lookup' parent k path := by
  induction h with
  | root found top => exact .root (hsub _ _ found) top
  | step found up _ ih => exact .step (hsub _ _ found) up ih

/-- From any node on, a path is the path of that node. -/
theorem Path.suffix (hkey : ∀ {j n}, lookup j = some n → key n = j)
    (h : Path lookup parent k (before ++ n :: after)) : Path lookup parent (key n) (n :: after) := by
  induction before generalizing k with
  | nil =>
    rw [hkey h.lookup_head]
    exact h
  | cons m rest ih =>
    rw [List.cons_append] at h
    generalize he : rest ++ n :: after = tail at h
    cases h with
    | root found top => simp at he
    | step found up rest' => exact ih (he ▸ rest')

theorem Path.key_ne (hkey : ∀ {j n}, lookup j = some n → key n = j)
    (h : Path lookup parent k (before ++ n :: after)) (hm : m ∈ before) : key m ≠ key n := by
  intro he
  obtain ⟨b, c, rfl⟩ := List.append_of_mem hm
  have hn := h.suffix hkey
  rw [List.append_assoc, List.cons_append] at h
  have hlong := h.suffix hkey
  rw [he] at hlong
  have hlen := congrArg List.length (hlong.unique hn)
  simp only [List.length_cons, List.length_append] at hlen
  omega

theorem Path.parent_mem {p : κ} (h : Path lookup parent k path) (hn : n ∈ path)
    (hp : parent n = some p) : ∃ m ∈ path, lookup p = some m := by
  induction h with
  | root found top =>
    rw [List.mem_singleton.mp hn, top] at hp
    cases hp
  | step found up rest ih =>
    rcases List.mem_cons.mp hn with rfl | hn
    · rw [up] at hp
      cases hp
      obtain ⟨m, tail, rfl, hm⟩ := rest.head
      exact ⟨m, List.mem_cons_of_mem _ (List.mem_cons_self ..), hm⟩
    · obtain ⟨m, hm, hlookup⟩ := ih hn
      exact ⟨m, List.mem_cons_of_mem _ hm, hlookup⟩

theorem Path.mem_lookup (hkey : ∀ {j n}, lookup j = some n → key n = j) (h : Path lookup parent k path)
    (hn : n ∈ path) : lookup (key n) = some n := by
  obtain ⟨before, after, rfl⟩ := List.append_of_mem hn
  exact (h.suffix hkey).lookup_head

section Rooted

variable {rank : ν → Nat}

section

variable (h : Rooted key parent rank lookup)

include h

theorem Rooted.exists_path (hn : lookup k = some n) : ∃ path, Path lookup parent k path := by
  induction hr : rank n generalizing k n with
  | zero =>
    cases hp : parent n with
    | none => exact ⟨_, .root hn hp⟩
    | some p =>
      obtain ⟨m, _, hm⟩ := h.parent_known hn hp
      omega
  | succ r ih =>
    cases hp : parent n with
    | none => exact ⟨_, .root hn hp⟩
    | some p =>
      obtain ⟨m, hm, hrank⟩ := h.parent_known hn hp
      obtain ⟨path, hpath⟩ := ih hm (by omega)
      exact ⟨_, .step hn hp hpath⟩

section

variable (hp : Path lookup parent k (n :: rest))

include hp

/-- The ranks along a path count down to 0. -/
theorem Rooted.path_length : rest.length = rank n := by
  induction rest generalizing k n with
  | nil =>
    cases hp with
    | root found top => exact (h.root_rank found top).symm
    | step found up rest => obtain ⟨_, _, he, _⟩ := rest.head; cases he
  | cons m tail ih =>
    cases hp with
    | step found up rest =>
      obtain ⟨m', hm, hrank⟩ := h.parent_known found up
      have hhead := rest.lookup_head
      rw [hm] at hhead
      cases hhead
      have hlen := ih rest
      simp only [List.length_cons]
      omega

theorem Rooted.rank_lt (hm : m ∈ rest) : rank m < rank n := by
  obtain ⟨before, after, rfl⟩ := List.append_of_mem hm
  have hsuffix : Path lookup parent (key m) (m :: after) := by
    rw [← List.cons_append] at hp
    exact hp.suffix h.key_eq
  have hlen := h.path_length hp
  have hlen' := h.path_length hsuffix
  simp only [List.length_append, List.length_cons] at hlen
  omega

theorem Rooted.rank_le (hm : m ∈ n :: rest) : rank m ≤ rank n := by
  rcases List.mem_cons.mp hm with rfl | hm
  · exact Nat.le_refl _
  · exact Nat.le_of_lt (h.rank_lt hp hm)

/-- A path has a node of every rank up to that of its first node. -/
theorem Rooted.exists_rank {r : Nat} (hr : r ≤ rank n) : ∃ m ∈ n :: rest, rank m = r := by
  induction rest generalizing k n with
  | nil =>
    have hlength := h.path_length hp
    simp only [List.length_nil] at hlength
    exact ⟨n, List.mem_cons_self, by omega⟩
  | cons next tail ih =>
    by_cases heq : rank n = r
    · exact ⟨n, List.mem_cons_self, heq⟩
    · have hlength := h.path_length hp
      cases hp with
      | step found up rest =>
        have hnext := h.path_length rest
        simp only [List.length_cons] at hlength
        obtain ⟨m, hm, hrank⟩ := ih rest (by omega)
        exact ⟨m, List.mem_cons_of_mem _ hm, hrank⟩

end

theorem Rooted.eq_of_rank (hp : Path lookup parent k path) (hn : n ∈ path)
    (hm : m ∈ path) (hr : rank n = rank m) : n = m := by
  induction hp with
  | root found top => simp_all
  | step found up rest ih =>
    have hpath := Path.step found up rest
    rcases List.mem_cons.mp hn with rfl | hn'
    · rcases List.mem_cons.mp hm with rfl | hm'
      · rfl
      · have hlt := h.rank_lt hpath hm'
        omega
    · rcases List.mem_cons.mp hm with rfl | hm'
      · have hlt := h.rank_lt hpath hn'
        omega
      · exact ih hn' hm'

/-- A node on a path that is not higher than another node of it lies on that node's path. -/
theorem Rooted.mem_of_rank_le (hp : Path lookup parent k path)
    (he : path = before ++ n :: after) (hm : m ∈ path) (hr : rank m ≤ rank n) : m ∈ n :: after := by
  subst he
  rcases List.mem_append.mp hm with hb | ha
  · obtain ⟨b, c, rfl⟩ := List.append_of_mem hb
    have hp' : Path lookup parent k (b ++ m :: (c ++ n :: after)) := by
      simpa [List.append_assoc] using hp
    have hlt := h.rank_lt (hp'.suffix h.key_eq) (m := n) (by simp)
    omega
  · exact ha

/-- A sublookup that keeps the parent of each of its nodes is rooted with the same paths. -/
theorem Rooted.restrict (hsub : ∀ k n, lookup' k = some n → lookup k = some n)
    (hclosed : ∀ k n p, lookup' k = some n → parent n = some p → ∃ m, lookup' p = some m) :
    Rooted key parent rank lookup' where
  key_eq hk := h.key_eq (hsub _ _ hk)
  root_rank hk := h.root_rank (hsub _ _ hk)
  parent_known := by
    intro k n p hk hp
    obtain ⟨m, hm, hr⟩ := h.parent_known (hsub _ _ hk) hp
    obtain ⟨m', hm'⟩ := hclosed k n p hk hp
    have he := hsub _ _ hm'
    rw [hm] at he
    cases he
    exact ⟨m, hm', hr⟩

end

theorem Rooted.path_restrict (h : Rooted key parent rank lookup') (hsub : ∀ k n, lookup' k = some n → lookup k = some n)
    (hn : lookup' k = some n) (hp : Path lookup parent k path) : Path lookup' parent k path := by
  obtain ⟨path', hp'⟩ := h.exists_path hn
  rwa [hp.unique (hp'.mono hsub)]

end Rooted

section Common

variable [DecidableEq ν] {lookup : κ → Option ν}

/-- The first node of one path that lies on the other splits both paths into a part of their
own and a shared rest. -/
theorem Path.split_at_common (hkey : ∀ {j n}, lookup j = some n → key n = j) {l : κ} {p q : List ν}
    (hp : Path lookup parent k p) (hq : Path lookup parent l q) {r : ν} (hrp : r ∈ p) (hrq : r ∈ q) :
    ∃ own own' n shared, p = own ++ n :: shared ∧ q = own' ++ n :: shared ∧
      (∀ m ∈ own', m ∉ p) := by
  obtain ⟨own', n, after, hq', hn, hown⟩ : ∃ own' n after, q = own' ++ n :: after ∧ n ∈ p ∧
      ∀ m ∈ own', m ∉ p := by
    clear hq
    induction q with
    | nil => cases hrq
    | cons m rest ih =>
      by_cases hm : m ∈ p
      · exact ⟨[], m, rest, rfl, hm, by simp⟩
      · have hr : r ∈ rest := by
          rcases List.mem_cons.mp hrq with rfl | hr
          · exact absurd hrp hm
          · exact hr
        obtain ⟨own', n, after, rfl, hn, hown⟩ := ih hr
        refine ⟨m :: own', n, after, rfl, hn, ?_⟩
        intro x hx
        rcases List.mem_cons.mp hx with rfl | hx
        · exact hm
        · exact hown x hx
  obtain ⟨own, shared, hp'⟩ := List.append_of_mem hn
  subst hp' hq'
  have hs := (hp.suffix hkey).unique (hq.suffix hkey)
  obtain rfl : shared = after := by simpa using hs
  exact ⟨own, own', n, _, rfl, rfl, hown⟩

end Common

end Forest
