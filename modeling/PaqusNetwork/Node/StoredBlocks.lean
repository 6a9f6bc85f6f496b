import PaqusNetwork.Reference.Sample

namespace PaqusNetwork

open Effect

variable {F : Type} {paqus : Paqus F} {ranking : Ranking}

/-- The nodes of a fork graph, and those of the stored blocks that a chain of stored parents ties to it. -/
inductive Attached (paqus : Paqus F) (ranking : Ranking) (f : F) (blocks : List Block) :
    BlockHash → ForkNode → Prop
  | known {key node} (found : paqus.fork.get f key = some node) : Attached paqus ranking f blocks key node
  | stored {key block parent} (mem : block ∈ blocks) (hash_eq : paqus.blockHash block = .ok key)
      (fresh : paqus.fork.get f key = none) (above : Attached paqus ranking f blocks block.previousHash parent) :
      Attached paqus ranking f blocks key
        ⟨key, block.previousHash, block.height, block, parent.cumulativeWork + ranking.work block⟩

/-- Blocks that were checked before they were stored: each under its own hash and one higher than its parent,
and none of them a root beside those of the graph. -/
structure StoredBlocks (paqus : Paqus F) (f : F) (blocks : List Block) : Prop where
  hashed : ∀ {block}, block ∈ blocks → ∃ hash, paqus.blockHash block = .ok hash
  keyed : ∀ {block other hash}, block ∈ blocks → other ∈ blocks →
    paqus.blockHash block = .ok hash → paqus.blockHash other = .ok hash → block = other
  rooted : ∀ {block hash}, block ∈ blocks → paqus.blockHash block = .ok hash → block.height = 0 →
    ∃ node, paqus.fork.get f hash = some node
  above_known : ∀ {block parent}, block ∈ blocks → paqus.fork.get f block.previousHash = some parent →
    block.height = parent.height + 1
  above_stored : ∀ {block parent}, block ∈ blocks → parent ∈ blocks →
    paqus.blockHash parent = .ok block.previousHash → block.height = parent.height + 1

/-- A graph between `f` and all that can be attached to it. -/
structure IndexedFrom (paqus : Paqus F) (ranking : Ranking) (f : F) (blocks : List Block) (g : F) : Prop where
  kept : ∀ {key node}, paqus.fork.get f key = some node → paqus.fork.get g key = some node
  attached : ∀ {key node}, paqus.fork.get g key = some node → Attached paqus ranking f blocks key node

def Paqus.Holds (paqus : Paqus F) (g : F) (block : Block) : Prop :=
  ∃ hash node, paqus.blockHash block = .ok hash ∧ paqus.fork.get g hash = some node

variable {f g g' : F} {blocks todo : List Block} {block : Block} {key : BlockHash} {node parent : ForkNode}

theorem Paqus.Holds.mono (h : paqus.Holds g block)
    (hkeeps : ∀ key node, paqus.fork.get g key = some node → paqus.fork.get g' key = some node) :
    paqus.Holds g' block := by
  obtain ⟨hash, node, hhash, hn⟩ := h
  exact ⟨hash, node, hhash, hkeeps _ _ hn⟩

theorem IndexedFrom.insert {hash : BlockHash} (h : IndexedFrom paqus ranking f blocks g) (hmem : block ∈ blocks)
    (hgrown : Grown paqus ranking g block hash parent g') : IndexedFrom paqus ranking f blocks g' where
  kept hn := hgrown.get_old _ _ (h.kept hn)
  attached {key node} hn := by
    rcases hgrown.cases_get hn with ⟨rfl, rfl⟩ | hn
    · have hfresh : paqus.fork.get f key = none := by
        refine Option.eq_none_iff_forall_not_mem.mpr fun node hf => ?_
        cases hgrown.fresh.symm.trans (h.kept hf)
      simp only [ForkNode.of, hgrown.parent_known, Option.elim_some]
      exact .stored hmem hgrown.hash_eq hfresh (h.attached hgrown.parent_known)
    · exact h.attached hn

/-- What a pass over `todo` makes of the graph `g` and leaves over. -/
structure Passed (paqus : Paqus F) (ranking : Ranking) (f : F) (blocks todo : List Block) (g : F)
    (passed : F × List Block × Bool) : Prop where
  indexed : IndexedFrom paqus ranking f blocks passed.1
  keeps : ∀ key node, paqus.fork.get g key = some node → paqus.fork.get passed.1 key = some node
  waits : passed.2.1.Sublist todo
  held : ∀ block ∈ todo, block ∈ passed.2.1 ∨ paqus.Holds passed.1 block
  idle : passed.2.2 = false → passed.1 = g ∧ ∀ block ∈ todo, paqus.fork.get g block.previousHash = none

section Pass

variable (stored : StoredBlocks paqus f blocks)

include stored

theorem StoredBlocks.height_eq (hmem : block ∈ blocks)
    (ha : Attached paqus ranking f blocks block.previousHash parent) : block.height = parent.height + 1 := by
  cases ha with
  | known hfound => exact stored.above_known hmem hfound
  | stored hparent hhash => exact stored.above_stored hmem hparent hhash

theorem StoredBlocks.unique {other : ForkNode} (ha : Attached paqus ranking f blocks key node)
    (hb : Attached paqus ranking f blocks key other) : node = other := by
  induction ha generalizing other with
  | known hfound =>
    cases hb with
    | known hfound' => exact Option.some.inj (hfound.symm.trans hfound')
    | stored _ _ hfresh => cases hfresh.symm.trans hfound
  | stored hmem hhash hfresh _ ih =>
    cases hb with
    | known hfound => cases hfresh.symm.trans hfound
    | stored hmem' hhash' _ habove =>
      obtain rfl := stored.keyed hmem hmem' hhash hhash'
      rw [ih habove]

variable (laws : ForkChoiceLaws paqus ranking) (indexing : IndexingLaws paqus)
  (h : IndexedFrom paqus ranking f blocks g)

include laws indexing h

/-- One turn of a pass: the block is there or goes onto its parent, or it waits for it. -/
theorem IndexedFrom.turn (hmem : block ∈ blocks) (rest : List Block) :
    (∃ g', IndexedFrom paqus ranking f blocks g' ∧ paqus.Holds g' block ∧
      (∀ key node, paqus.fork.get g key = some node → paqus.fork.get g' key = some node) ∧
      indexPass paqus (block :: rest) g = (indexPass paqus rest g').map fun passed => (passed.1, passed.2.1, true)) ∨
    (paqus.fork.get g block.previousHash = none ∧ indexPass paqus (block :: rest) g =
      (indexPass paqus rest g).map fun passed => (passed.1, block :: passed.2.1, passed.2.2)) := by
  obtain ⟨hash, hhash⟩ := stored.hashed hmem
  cases hknown : paqus.fork.get g hash with
  | some node =>
    refine .inl ⟨g, h, ⟨hash, node, hhash, hknown⟩, fun _ _ hn => hn, ?_⟩
    simp only [indexPass, hhash, mapError_ok, bind, Except.bind, Paqus.contains, hknown, Option.isSome_some, if_true]
    cases indexPass paqus rest g <;> rfl
  | none =>
    cases hp : paqus.fork.get g block.previousHash with
    | some parent =>
      have hheight := stored.height_eq hmem (h.attached hp)
      obtain ⟨g', hinsert⟩ := laws.insert_known hhash hknown hp hheight
      have hgrown : Grown paqus ranking g block hash parent g' := ⟨hhash, hknown, hp, hheight, laws.insert_get hinsert⟩
      refine .inl ⟨g', h.insert hmem hgrown, ⟨hash, _, hhash, hgrown.get_new⟩, hgrown.get_old, ?_⟩
      simp only [indexPass, hhash, mapError_ok, bind, Except.bind, Paqus.contains, hknown, Option.isSome_none,
        Bool.false_eq_true, if_false, hinsert]
      cases indexPass paqus rest g' <;> rfl
    | none =>
      have hheight : block.height ≠ 0 := by
        intro hzero
        obtain ⟨node, hnode⟩ := stored.rooted hmem hhash hzero
        cases hknown.symm.trans (h.kept hnode)
      refine .inr ⟨rfl, ?_⟩
      simp only [indexPass, hhash, mapError_ok, bind, Except.bind, Paqus.contains, hknown, Option.isSome_none,
        Bool.false_eq_true, if_false, indexing.insert_orphan hhash hknown hheight hp]
      cases indexPass paqus rest g <;> rfl

theorem IndexedFrom.pass (hsub : ∀ block ∈ todo, block ∈ blocks) :
    ∃ passed, indexPass paqus todo g = .ok passed ∧ Passed paqus ranking f blocks todo g passed := by
  induction todo generalizing g with
  | nil => exact ⟨_, rfl, h, fun _ _ hn => hn, .slnil, nofun, fun _ => ⟨rfl, nofun⟩⟩
  | cons block rest ih =>
    obtain ⟨hmem, hrest⟩ := List.forall_mem_cons.mp hsub
    rcases h.turn stored laws indexing hmem rest with ⟨g', h', hholds, hkeeps, hpass⟩ | ⟨horphan, hpass⟩
    · obtain ⟨passed, hok, hp⟩ := ih h' hrest
      rw [hok] at hpass
      refine ⟨_, hpass, hp.indexed, fun key node hn => hp.keeps _ _ (hkeeps _ _ hn), hp.waits.cons _, ?_, nofun⟩
      exact List.forall_mem_cons.mpr ⟨.inr (hholds.mono hp.keeps), hp.held⟩
    · obtain ⟨passed, hok, hp⟩ := ih h hrest
      rw [hok] at hpass
      refine ⟨_, hpass, hp.indexed, hp.keeps, hp.waits.cons_cons _, ?_, fun hidle => ?_⟩
      · refine List.forall_mem_cons.mpr ⟨.inl List.mem_cons_self, fun other ho => ?_⟩
        exact (hp.held other ho).imp_left (List.mem_cons_of_mem _)
      · obtain ⟨hsame, hnone⟩ := hp.idle hidle
        exact ⟨hsame, List.forall_mem_cons.mpr ⟨horphan, hnone⟩⟩

end Pass

theorem indexPass_shorter {passed : F × List Block × Bool} (h : indexPass paqus todo g = .ok passed) :
    passed.2.1.length + passed.2.2.toNat ≤ todo.length := by
  induction todo generalizing g passed with
  | nil =>
    obtain rfl := Except.ok.inj h
    simp
  | cons block rest ih =>
    obtain ⟨hash, _, h⟩ := except_bind_eq_ok.mp h
    split at h
    on_goal 2 => split at h
    on_goal 4 => cases h
    all_goals
      obtain ⟨inner, hinner, h⟩ := except_bind_eq_ok.mp h
      obtain rfl := Except.ok.inj h
      have hle := ih hinner
      simp only [List.length_cons, Bool.toNat_true]
      omega

/-- The passes end by themselves: more of them than blocks change nothing. -/
theorem indexPasses_ends {passes other : Nat} (hpasses : todo.length < passes) (hother : todo.length < other) :
    indexPasses paqus passes todo g = indexPasses paqus other todo g := by
  induction passes generalizing todo g other with
  | zero => omega
  | succ passes ih =>
    obtain ⟨other, rfl⟩ : ∃ n, other = n + 1 := ⟨other - 1, by omega⟩
    cases hpass : indexPass paqus todo g with
    | error error => simp only [indexPasses, hpass, bind, Except.bind]
    | ok passed =>
      have hle := indexPass_shorter hpass
      simp only [indexPasses, hpass, bind, Except.bind]
      split
      next hprogress =>
        rw [hprogress, Bool.toNat_true] at hle
        exact ih (by omega) (by omega)
      next => rfl

section Passes

variable (laws : ForkChoiceLaws paqus ranking) (indexing : IndexingLaws paqus)

include laws indexing

theorem indexPasses_complete {passes : Nat} (stored : StoredBlocks paqus f blocks)
    (h : IndexedFrom paqus ranking f blocks g) (hsub : ∀ block ∈ todo, block ∈ blocks)
    (hheld : ∀ block ∈ blocks, block ∈ todo ∨ paqus.Holds g block) (hpasses : todo.length < passes) :
    ∃ g', indexPasses paqus passes todo g = .ok g' ∧ IndexedFrom paqus ranking f blocks g' ∧
      ∀ block ∈ blocks, paqus.Holds g' block ∨ paqus.fork.get g' block.previousHash = none := by
  induction passes generalizing todo g with
  | zero => omega
  | succ passes ih =>
    obtain ⟨passed, hpass, hp⟩ := h.pass stored laws indexing hsub
    have hle := indexPass_shorter hpass
    simp only [indexPasses, hpass, bind, Except.bind]
    cases hprogress : passed.2.2 with
    | true =>
      rw [hprogress, Bool.toNat_true] at hle
      refine ih hp.indexed (fun block hb => hsub block (hp.waits.subset hb)) (fun block hb => ?_) (by omega)
      rcases hheld block hb with htodo | hholds
      · exact hp.held block htodo
      · exact .inr (hholds.mono hp.keeps)
    | false =>
      obtain ⟨hsame, hnone⟩ := hp.idle hprogress
      refine ⟨passed.1, rfl, hp.indexed, fun block hb => ?_⟩
      rw [hsame]
      exact (hheld block hb).symm.imp_right (hnone block)

theorem indexPasses_attached (f : F) (blocks : List Block) :
    (∀ passes, blocks.length < passes →
      indexPasses paqus passes blocks f = indexPasses paqus (blocks.length + 1) blocks f) ∧
    (StoredBlocks paqus f blocks → ∀ order : List Block, order.Perm blocks →
      ∃ g, indexPasses paqus (order.length + 1) order f = .ok g ∧
        ∀ key node, paqus.fork.get g key = some node ↔ Attached paqus ranking f blocks key node) := by
  refine ⟨fun passes hp => indexPasses_ends hp (Nat.lt_succ_self _), fun stored order hperm => ?_⟩
  obtain ⟨g, hok, h, hcomplete⟩ := indexPasses_complete laws indexing stored ⟨id, .known⟩
    (fun _ hb => hperm.mem_iff.mp hb) (fun _ hb => .inl (hperm.mem_iff.mpr hb)) (Nat.lt_succ_self _)
  refine ⟨g, hok, fun key node => ⟨h.attached, fun ha => ?_⟩⟩
  induction ha with
  | known hfound => exact h.kept hfound
  | stored hmem hhash hfresh habove ih =>
    rcases hcomplete _ hmem with ⟨hash, node, hhash', hn⟩ | hnone
    · obtain rfl := Except.ok.inj (hhash.symm.trans hhash')
      rw [hn, stored.unique (h.attached hn) (.stored hmem hhash hfresh habove)]
    · cases hnone.symm.trans ih

end Passes

namespace Reference

def rootTree : ForkTree := ⟨[nodeOf [] 100 genesisBlock], @ordered_insert [] trivial _ _ (by decide) (.inl rfl)⟩

/-- The second block on the root, read before the first, and one whose parent is not stored. -/
def gapped : List Block :=
  [BlockHeader.bare ⟨2, 101, 0, 1, [102]⟩, BlockHeader.bare ⟨1, 100, 0, 1, [101]⟩,
    BlockHeader.bare ⟨4, 103, 0, 1, [104]⟩]

theorem gapped_stored : StoredBlocks (protocol 2) rootTree gapped where
  hashed _ := ⟨_, rfl⟩
  keyed {block other hash} hblock hother hhash hhash' := by
    have h : ∀ block ∈ gapped, ∀ other ∈ gapped, digest block = digest other → block = other := by decide
    exact h block hblock other hother (Except.ok.inj (hhash.trans hhash'.symm))
  rooted {block _} hblock _ hzero := by
    have h : ∀ block ∈ gapped, block.height ≠ 0 := by decide
    exact absurd hzero (h block hblock)
  above_known {block parent} hblock hparent := by
    have h : ∀ block ∈ gapped, ∀ parent ∈ find rootTree.nodes block.previousHash,
      block.height = parent.height + 1 := by decide
    exact h block hblock parent hparent
  above_stored {block parent} hblock hparent hhash := by
    have h : ∀ block ∈ gapped, ∀ parent ∈ gapped, digest parent = block.previousHash →
      block.height = parent.height + 1 := by decide
    exact h block hblock parent hparent (Except.ok.inj hhash)

theorem indexPasses_attached_gapped : StoredBlocks (protocol 2) rootTree gapped ∧
    ∃ g node, indexPasses (protocol 2) 4 gapped rootTree = .ok g ∧ find g.nodes 102 = some node := by
  obtain ⟨g, hok, hiff⟩ := (indexPasses_attached (forkChoice_laws 2) (indexing_laws 2) rootTree gapped).2
    gapped_stored gapped (.refl _)
  have hroot : Attached (protocol 2) ranking rootTree gapped 100 _ := .known rfl
  have hfirst : Attached (protocol 2) ranking rootTree gapped 101 _ :=
    .stored (.tail _ List.mem_cons_self) rfl rfl hroot
  exact ⟨gapped_stored, g, _, hok, (hiff 102 _).mpr (.stored List.mem_cons_self rfl rfl hfirst)⟩

end Reference

end PaqusNetwork
