import PaqusNetwork.Protocol.Laws

namespace PaqusNetwork.Reference

/-- Newest block first: no hash twice, and the parent of a block that is no root is older. -/
def Ordered : List ForkNode → Prop
  | [] => True
  | node :: rest => (∀ other ∈ rest, other.hash ≠ node.hash) ∧
      (node.height = 0 ∨ ∃ parent ∈ rest, parent.hash = node.parent) ∧ Ordered rest

structure ForkTree where
  nodes : List ForkNode
  ordered : Ordered nodes

def find (nodes : List ForkNode) (hash : BlockHash) : Option ForkNode := nodes.find? fun node => node.hash == hash

def ancestors : List ForkNode → BlockHash → List ForkNode
  | [], _ => []
  | node :: rest, hash =>
    if node.hash = hash then
      node :: (if node.height = 0 then [] else ancestors rest node.parent)
    else ancestors rest hash

def better (left right : ForkNode) : Bool :=
  right.cumulativeWork < left.cumulativeWork || (left.cumulativeWork == right.cumulativeWork && left.hash < right.hash)

def best : List ForkNode → Option ForkNode
  | [] => none
  | node :: rest =>
    match best rest with
    | none => some node
    | some other => if better node other then some node else some other

def related (nodes : List ForkNode) (final : BlockHash) (node : ForkNode) : Bool :=
  (ancestors nodes final).contains node || (ancestors nodes node.hash).any fun other => other.hash == final

variable {nodes : List ForkNode} {node : ForkNode} {hash : BlockHash}

theorem find_hash (h : find nodes hash = some node) : node.hash = hash := by
  simpa using List.find?_some h

theorem find_mem (h : find nodes hash = some node) : node ∈ nodes := List.mem_of_find?_eq_some h

theorem find_of_mem (hn : Ordered nodes) (h : node ∈ nodes) : find nodes node.hash = some node := by
  induction nodes with
  | nil => cases h
  | cons first rest ih =>
    rcases List.mem_cons.mp h with rfl | h
    · simp [find]
    · have hne := (hn.1 node h).symm
      have hrest := ih hn.2.2 h
      rw [find, List.find?_cons_of_neg (by simpa using hne)]
      exact hrest

theorem find_cons {first : ForkNode} {rest : List ForkNode} (hn : Ordered (first :: rest))
    (h : find rest hash = some node) :
    find (first :: rest) hash = some node := by
  have hmem := find_of_mem hn (List.mem_cons_of_mem first (find_mem h))
  rwa [find_hash h] at hmem

theorem ancestors_path (hn : Ordered nodes) (h : find nodes hash = some node) :
    Forest.Path (find nodes) ForkNode.parent? hash (ancestors nodes hash) := by
  induction nodes generalizing hash node with
  | nil => cases h
  | cons first rest ih =>
    have hmono := fun (j : BlockHash) (m : ForkNode) (hj : find rest j = some m) => find_cons hn hj
    unfold ancestors
    split
    next he =>
      have hself : find (first :: rest) hash = some first := by simp [find, he]
      split
      next hz => exact .root hself (by simp [ForkNode.parent?, hz])
      next hz =>
        obtain ⟨parent, hp, hph⟩ := hn.2.1.resolve_left hz
        have hfound := find_of_mem hn.2.2 hp
        rw [hph] at hfound
        exact .step hself (by simp [ForkNode.parent?, hz]) ((ih hn.2.2 hfound).mono hmono)
    next he =>
      have hrest : find rest hash = some node := by simpa [find, he] using h
      exact (ih hn.2.2 hrest).mono hmono

theorem path_eq_ancestors (hn : Ordered nodes) {path : List ForkNode}
    (h : Forest.Path (find nodes) ForkNode.parent? hash path) :
    ancestors nodes hash = path := by
  obtain ⟨node, _, _, hnode⟩ := h.head
  exact (ancestors_path hn hnode).unique h

theorem ancestors_unknown (h : find nodes hash = none) : ancestors nodes hash = [] := by
  induction nodes with
  | nil => rfl
  | cons first rest ih =>
    have hne : first.hash ≠ hash := by
      intro he
      simp [find, he] at h
    have hrest : find rest hash = none := by simpa [find, hne] using h
    simp [ancestors, hne, ih hrest]

theorem best_mem (h : best nodes = some node) : node ∈ nodes := by
  induction nodes with
  | nil => cases h
  | cons first rest ih =>
    unfold best at h
    split at h
    · cases h; simp
    next other hother =>
      split at h
      · cases h; simp
      · cases h; exact List.mem_cons_of_mem _ (ih hother)

theorem best_isSome (h : node ∈ nodes) : ∃ top, best nodes = some top := by
  cases nodes with
  | nil => cases h
  | cons first rest =>
    unfold best
    split
    · exact ⟨_, rfl⟩
    · split
      · exact ⟨_, rfl⟩
      · exact ⟨_, rfl⟩

def ranking : Ranking where
  work block := block.header.difficulty
  prefers left right := left < right
  irrefl := Nat.lt_irrefl
  trans := Nat.lt_trans
  connected h := Nat.lt_or_gt_of_ne h

theorem better_iff {left right : ForkNode} : better left right = true ↔
    ranking.Outranks left.cumulativeWork left.hash right.cumulativeWork right.hash := by
  simp [better, Ranking.Outranks, ranking]

theorem best_max (hn : Ordered nodes) {top : ForkNode}
    (h : best nodes = some top) (hmem : node ∈ nodes) : node = top ∨
      ranking.Outranks top.cumulativeWork top.hash node.cumulativeWork node.hash := by
  induction nodes generalizing top node with
  | nil => cases h
  | cons first rest ih =>
    unfold best at h
    cases hbest : best rest with
    | none =>
      simp only [hbest, Option.some.injEq] at h
      rcases List.mem_cons.mp hmem with rfl | hmem
      · exact .inl h
      · obtain ⟨_, hsome⟩ := best_isSome hmem
        rw [hbest] at hsome
        cases hsome
    | some other =>
      simp only [hbest] at h
      have hrest := fun (m : ForkNode) (hm : m ∈ rest) => ih hn.2.2 hbest hm
      split at h
      next hb =>
        cases h
        rcases List.mem_cons.mp hmem with rfl | hmem
        · exact .inl rfl
        · rcases hrest node hmem with rfl | hout
          · exact .inr (better_iff.mp hb)
          · exact .inr ((better_iff.mp hb).trans hout)
      next hb =>
        cases h
        rcases List.mem_cons.mp hmem with rfl | hmem
        · right
          have hne := hn.1 top (best_mem hbest)
          have hb' : ¬ranking.Outranks node.cumulativeWork node.hash top.cumulativeWork top.hash :=
            fun h => hb (better_iff.mpr h)
          rcases Nat.lt_trichotomy top.cumulativeWork node.cumulativeWork with hlt | heq | hgt
          · exact absurd (.inl hlt) hb'
          · rcases ranking.connected hne with hp | hp
            · exact .inr ⟨heq, hp⟩
            · exact absurd (.inr ⟨heq.symm, hp⟩) hb'
          · exact .inl hgt
        · exact hrest node hmem

section Prune

variable {keep : ForkNode → Bool}

theorem ordered_filter (hn : Ordered nodes) (hkeep : ∀ node ∈ nodes, keep node = true → node.height ≠ 0 →
      ∀ parent ∈ nodes, parent.hash = node.parent → keep parent = true) : Ordered (nodes.filter keep) := by
  induction nodes with
  | nil => trivial
  | cons first rest ih =>
    have hrest := ih hn.2.2 fun node hnode hk hz parent hp =>
      hkeep node (List.mem_cons_of_mem _ hnode) hk hz parent (List.mem_cons_of_mem _ hp)
    rw [List.filter_cons]
    split
    next hk =>
      refine ⟨fun other ho => hn.1 other (List.mem_of_mem_filter ho), ?_, hrest⟩
      by_cases hz : first.height = 0
      · exact .inl hz
      · obtain ⟨parent, hp, hph⟩ := hn.2.1.resolve_left hz
        have hkp := hkeep first (by simp) hk hz parent (List.mem_cons_of_mem _ hp) hph
        exact .inr ⟨parent, List.mem_filter.mpr ⟨hp, hkp⟩, hph⟩
    next => exact hrest

theorem find_filter (hn : Ordered nodes) :
    find (nodes.filter keep) hash = some node ↔ find nodes hash = some node ∧ keep node = true := by
  constructor
  · intro h
    have hmem := List.mem_filter.mp (find_mem h)
    have hfound := find_of_mem hn hmem.1
    rw [find_hash h] at hfound
    exact ⟨hfound, hmem.2⟩
  · rintro ⟨h, hk⟩
    induction nodes with
    | nil => cases h
    | cons first rest ih =>
      rw [List.filter_cons]
      by_cases he : first.hash = hash
      · have hself : first = node := by simpa [find, he] using h
        subst hself
        simp [hk, find, he]
      · have hrest : find rest hash = some node := by simpa [find, he] using h
        have := ih hn.2.2 hrest
        split
        · rw [find, List.find?_cons_of_neg (by simpa using he)]
          exact this
        · exact this

variable {parent : ForkNode}

theorem ancestors_parent (hn : Ordered nodes) (h : find nodes hash = some node) (hz : node.height ≠ 0)
    (hp : find nodes node.parent = some parent) : ancestors nodes hash = node :: ancestors nodes node.parent :=
  path_eq_ancestors hn (.step h (by simp [ForkNode.parent?, hz]) (ancestors_path hn hp))

variable {final : BlockHash}

theorem related_iff (h : find nodes hash = some node) : related nodes final node = true ↔
      node ∈ ancestors nodes final ∨ ∃ other ∈ ancestors nodes hash, other.hash = final := by
  simp [related, find_hash h]

theorem related_parent (hn : Ordered nodes) (hnode : node ∈ nodes) (hr : related nodes final node = true)
    (hz : node.height ≠ 0) (hmem : parent ∈ nodes) (hparent : parent.hash = node.parent) :
    related nodes final parent = true := by
  have hn' := find_of_mem hn hnode
  have hp' := find_of_mem hn hmem
  have hup : find nodes node.parent = some parent := by rw [← hparent]; exact hp'
  have hown := ancestors_parent hn hn' hz hup
  have hhead : parent ∈ ancestors nodes node.parent := by
    obtain ⟨top, rest, he, htop⟩ := (ancestors_path hn hup).head
    rw [hup] at htop
    cases htop
    simp [he]
  rw [related_iff hp']
  rcases (related_iff hn').mp hr with hanc | ⟨other, hother, hfinal⟩
  · left
    cases hfound : find nodes final with
    | none => rw [ancestors_unknown hfound] at hanc; cases hanc
    | some top =>
      have hpath := ancestors_path hn hfound
      obtain ⟨before, after, he⟩ := List.append_of_mem hanc
      rw [he] at hpath ⊢
      have hsuffix := path_eq_ancestors hn (hpath.suffix find_hash)
      rw [hown] at hsuffix
      simp only [List.cons.injEq, true_and] at hsuffix
      rw [← hsuffix]
      simp [hhead]
  · rw [hown] at hother
    rcases List.mem_cons.mp hother with rfl | hother
    · left
      rw [← hfinal, hown]
      simp [hhead]
    · right
      rw [hparent]
      exact ⟨other, hother, hfinal⟩

end Prune

end PaqusNetwork.Reference
