import Mathlib.Logic.Basic

namespace Effect

variable {ε ε' σ τ α β γ : Type} {condition : Bool}

def state : EStateM.Result ε σ α → σ
  | .ok _ s => s
  | .error _ s => s

def outcome : EStateM.Result ε σ α → Except ε α
  | .ok a _ => .ok a
  | .error e _ => .error e

/-- Run a program and hand its outcome to the caller, who goes on in the state it left. -/
def attempt (x : EStateM ε σ α) : EStateM ε σ (Except ε α) := fun s =>
  match x s with
  | .ok a s' => .ok (.ok a) s'
  | .error e s' => .ok (.error e) s'

def liftExcept (f : ε' → ε) : Except ε' α → EStateM ε σ α
  | .ok a => pure a
  | .error e => throw (f e)

def orThrow (e : ε) : Option α → EStateM ε σ α
  | some a => pure a
  | none => throw e

def ensure (e : ε) (condition : Bool) : EStateM ε σ Unit :=
  if condition then pure () else throw e

def check (e : ε) (condition : Bool) : Except ε Unit :=
  if condition then .ok () else .error e

def runIf (condition : Bool) (x : EStateM ε σ Unit) : EStateM ε σ Unit :=
  if condition then x else pure ()

def focus (view : σ → τ) (update : τ → σ → σ) (f : ε' → ε) (x : EStateM ε' τ α) :
    EStateM ε σ α := fun s =>
  match x (view s) with
  | .ok a t => .ok a (update t s)
  | .error e t => .error (f e) (update t s)

@[simp] theorem state_ok (a : α) (s : σ) : state (.ok a s : EStateM.Result ε σ α) = s := rfl

@[simp] theorem state_error (e : ε) (s : σ) : state (.error e s : EStateM.Result ε σ α) = s := rfl

@[simp] theorem outcome_ok (a : α) (s : σ) :
    outcome (.ok a s : EStateM.Result ε σ α) = .ok a := rfl

@[simp] theorem outcome_error (e : ε) (s : σ) :
    outcome (.error e s : EStateM.Result ε σ α) = .error e := rfl

@[simp] theorem pure_apply (a : α) (s : σ) : (pure a : EStateM ε σ α) s = .ok a s := rfl

@[simp] theorem throw_apply (e : ε) (s : σ) : (throw e : EStateM ε σ α) s = .error e s := rfl

@[simp] theorem get_apply (s : σ) : (get : EStateM ε σ σ) s = .ok s s := rfl

@[simp] theorem modify_apply (f : σ → σ) (s : σ) :
    (modify f : EStateM ε σ PUnit) s = .ok ⟨⟩ (f s) := rfl

@[simp] theorem set_apply (s s' : σ) : (set s' : EStateM ε σ PUnit) s = .ok ⟨⟩ s' := rfl

variable {g : ε' → ε} {update : τ → σ → σ} {items : List α} {s t : σ}

variable {view : σ → τ} {x : EStateM ε σ α} {f : α → EStateM ε σ β} {a : α} {b : β} {e : ε}

section Running

variable {s s' : σ}

theorem bind_ok (h : x s = .ok a s') : (x >>= f) s = f a s' := by
  show EStateM.bind x f s = f a s'
  simp only [EStateM.bind, h]

theorem get_bind {f : σ → EStateM ε σ β} : (get >>= f) s = f s s := rfl

theorem modify_bind {update : σ → σ} {f : PUnit → EStateM ε σ β} : (modify update >>= f) s = f ⟨⟩ (update s) := rfl

theorem bind_error (h : x s = .error e s') : (x >>= f) s = .error e s' := by
  show EStateM.bind x f s = .error e s'
  simp only [EStateM.bind, h]

theorem bind_eq_ok : (x >>= f) s = .ok b t ↔ ∃ a s', x s = .ok a s' ∧ f a s' = .ok b t := by
  cases h : x s with
  | ok a s' =>
    rw [bind_ok h]
    refine ⟨fun hf => ⟨a, s', rfl, hf⟩, ?_⟩
    rintro ⟨_, _, he, hf⟩
    cases he
    exact hf
  | error e s' => simp [bind_error h]

theorem attempt_ok (h : x s = .ok a s') : attempt x s = .ok (.ok a) s' := by
  simp only [attempt, h]

theorem attempt_error (h : x s = .error e s') : attempt x s = .ok (.error e) s' := by
  simp only [attempt, h]

theorem attempt_apply (x : EStateM ε σ α) (s : σ) : attempt x s = .ok (outcome (x s)) (state (x s)) := by
  cases h : x s with
  | ok a s' => exact attempt_ok h
  | error e s' => exact attempt_error h

@[simp] theorem liftExcept_ok (f : ε' → ε) (a : α) :
    (liftExcept f (.ok a) : EStateM ε σ α) = pure a := rfl

@[simp] theorem liftExcept_error (f : ε' → ε) (e : ε') :
    (liftExcept f (.error e : Except ε' α) : EStateM ε σ α) = throw (f e) := rfl

@[simp] theorem orThrow_some (e : ε) (a : α) :
    (orThrow e (some a) : EStateM ε σ α) = pure a := rfl

@[simp] theorem ensure_true (e : ε) : (ensure e true : EStateM ε σ Unit) = pure () := rfl

@[simp] theorem ensure_false (e : ε) : (ensure e false : EStateM ε σ Unit) = throw e := rfl

@[simp] theorem check_eq_ok {u : Unit} : check e condition = .ok u ↔ condition = true := by
  cases condition <;> simp [check]

@[simp] theorem runIf_true (x : EStateM ε σ Unit) : runIf true x = x := rfl

@[simp] theorem runIf_false (x : EStateM ε σ Unit) : runIf false x = pure () := rfl

theorem discard_ok (h : x s = .ok a s') : discard x s = .ok ⟨⟩ s' := by
  show EStateM.map _ x s = _
  simp only [EStateM.map, h, Function.const]

theorem discard_error (h : x s = .error e s') : discard x s = .error e s' := by
  show EStateM.map _ x s = _
  simp only [EStateM.map, h]

theorem discard_eq_ok {u : PUnit} : discard x s = .ok u s' ↔ ∃ a, x s = .ok a s' := by
  cases h : x s with
  | ok a t => rw [discard_ok h]; simp
  | error e t => rw [discard_error h]; simp

theorem liftExcept_eq_ok {f : ε' → ε} {x : Except ε' α} :
    (liftExcept f x : EStateM ε σ α) s = .ok a s' ↔ x = .ok a ∧ s' = s := by
  cases x with
  | ok b => simp [eq_comm]
  | error e => simp

theorem liftExcept_bind_eq_ok {x : Except ε' α} :
    (liftExcept g x >>= f) s = .ok b s' ↔ ∃ a, x = .ok a ∧ f a s = .ok b s' := by
  rw [bind_eq_ok]
  constructor
  · rintro ⟨a, _, hlift, hrest⟩
    obtain ⟨hx, rfl⟩ := liftExcept_eq_ok.mp hlift
    exact ⟨a, hx, hrest⟩
  · rintro ⟨a, hx, hrest⟩
    exact ⟨a, s, liftExcept_eq_ok.mpr ⟨hx, rfl⟩, hrest⟩

theorem ensure_eq_ok {u : Unit} : (ensure e condition : EStateM ε σ Unit) s = .ok u s' ↔ condition = true ∧ s' = s := by
  cases condition with
  | true => simp [eq_comm]
  | false => simp

theorem focus_eq_ok {f : ε' → ε} {x : EStateM ε' τ α} :
    focus view update f x s = .ok a s' ↔ ∃ t, x (view s) = .ok a t ∧ s' = update t s := by
  unfold focus
  cases x (view s) with
  | ok b t => simp [and_assoc, eq_comm]
  | error e t => simp

@[simp] theorem state_discard (x : EStateM ε σ α) (s : σ) :
    state (discard x s) = state (x s) := by
  cases h : x s with
  | ok a s' => rw [discard_ok h]; rfl
  | error e s' => rw [discard_error h]; rfl

/-- What follows a program and changes no state can be left out. -/
theorem state_bind_still (hf : ∀ a t, state (f a t) = t) (s : σ) : state ((x >>= f) s) = state (x s) := by
  cases h : x s with
  | ok a t => rw [bind_ok h]; exact hf a t
  | error e t => rw [bind_error h]; rfl

@[simp] theorem state_focus (view : σ → τ) (update : τ → σ → σ) (f : ε' → ε)
    (x : EStateM ε' τ α) (s : σ) :
    state (focus view update f x s) = update (state (x (view s))) s := by
  unfold focus
  cases x (view s) <;> rfl

@[simp] theorem except_bind_eq_ok {x : Except ε α} {f : α → Except ε β} :
    (x >>= f) = .ok b ↔ ∃ a, x = .ok a ∧ f a = .ok b := by
  cases x <;> simp [bind, Except.bind]

@[simp] theorem mapError_ok (f : ε → ε') (a : α) : (Except.ok a).mapError f = .ok a := rfl

@[simp] theorem mapError_error (f : ε → ε') (error : ε) :
    (Except.error error : Except ε α).mapError f = .error (f error) := rfl

@[simp] theorem mapError_eq_ok {x : Except ε α} {f : ε → ε'} : x.mapError f = .ok a ↔ x = .ok a := by
  cases x <;> simp

theorem map_eq_ok {x : Except ε α} {f : α → β} : x.map f = .ok b ↔ ∃ a, x = .ok a ∧ f a = b := by
  cases x <;> simp [Except.map]

variable {values : List β}

theorem mapM_cons_eq_ok {f : α → Except ε β} {item : α} {rest : List α} (h : (item :: rest).mapM f = .ok values) :
    ∃ value others, f item = .ok value ∧ rest.mapM f = .ok others ∧ values = value :: others := by
  rw [List.mapM_cons] at h
  obtain ⟨value, hvalue, h⟩ := except_bind_eq_ok.mp h
  obtain ⟨others, hothers, h⟩ := except_bind_eq_ok.mp h
  exact ⟨value, others, hvalue, hothers, (Except.ok.inj h).symm⟩

theorem mem_of_mapM_eq_ok {f : α → Except ε β}
    (h : items.mapM f = .ok values) {value : β} : value ∈ values ↔ ∃ item ∈ items, f item = .ok value := by
  induction items generalizing values with
  | nil => cases h; simp
  | cons item rest ih =>
    obtain ⟨first, others, hfirst, hothers, rfl⟩ := mapM_cons_eq_ok h
    simp [hfirst, ih hothers, eq_comm]

variable {xs : List α}

theorem mapM_eq_filterMap {f : α → Except ε β} (h : ∀ x ∈ xs, ∃ y, f x = .ok y) :
    xs.mapM f = .ok (xs.filterMap fun x => (f x).toOption) := by
  induction xs with
  | nil => rfl
  | cons x xs ih =>
    obtain ⟨y, hy⟩ := h x (by simp)
    rw [List.mapM_cons, ih fun x hx => h x (by simp [hx]), List.filterMap_cons, hy]
    rfl

theorem mapM_ok {f : α → Except ε β}
    (h : ∀ item ∈ items, ∃ result, f item = .ok result) : ∃ results, items.mapM f = .ok results :=
  ⟨_, mapM_eq_filterMap h⟩

theorem length_mapM {f : α → Except ε β} {ys : List β} (h : xs.mapM f = .ok ys) : ys.length = xs.length := by
  induction xs generalizing ys with
  | nil =>
    cases h
    rfl
  | cons x xs ih =>
    obtain ⟨y, rest, -, hrest, rfl⟩ := mapM_cons_eq_ok h
    rw [List.length_cons, List.length_cons, ih hrest]

/-- Reading back items from their keys gives the items, in the order of the keys. -/
theorem mapM_perm {f : β → Except ε α} {key : α → β} {keys : List β} (hkeys : keys.Perm (items.map key))
    (h : ∀ item ∈ items, f (key item) = .ok item) : ∃ found, keys.mapM f = .ok found ∧ found.Perm items := by
  have hfound : ∀ k ∈ keys, ∃ item, f k = .ok item := by
    intro k hk
    obtain ⟨item, hitem, rfl⟩ := List.mem_map.mp (hkeys.mem_iff.mp hk)
    exact ⟨item, h item hitem⟩
  have hback : (items.map key).filterMap (fun k => (f k).toOption) = items := by
    clear hkeys hfound
    induction items with
    | nil => rfl
    | cons item items ih =>
      rw [List.map_cons, List.filterMap_cons, h item (by simp), ih fun other hother => h other (by simp [hother])]
      rfl
  exact ⟨_, mapM_eq_filterMap hfound, hback ▸ hkeys.filterMap _⟩

variable {r : EStateM.Result ε σ α}

theorem ok_of_isOk (h : (outcome r).isOk = true) : ∃ a, r = .ok a (state r) := by
  cases r with
  | ok a s => exact ⟨a, rfl⟩
  | error e s => cases h

theorem ok_of_outcome (h : (outcome r).toOption = some a) : r = .ok a (state r) := by
  cases r with
  | ok b s => cases h; rfl
  | error e s => cases h

theorem error_of_outcome {e : ε} (h : outcome r = .error e) : r = .error e (state r) := by
  cases r with
  | ok b s => cases h
  | error e s => cases h; rfl

theorem ok_of_toOption {x : Except ε α} (h : x.toOption = some a) : x = .ok a := by
  cases x with
  | ok b => cases h; rfl
  | error e => cases h

theorem exists_ok {x : Except ε α} (h : x.toOption.isSome = true) : ∃ a, x = .ok a :=
  (Option.isSome_iff_exists.mp h).imp fun _ => ok_of_toOption

theorem exists_ok_and {x : Except ε α} {P : α → Prop} [DecidablePred P]
    (h : x.toOption.any (fun a => decide (P a)) = true) : ∃ a, x = .ok a ∧ P a := by
  cases x with
  | ok a => exact ⟨a, rfl, of_decide_eq_true h⟩
  | error e => cases h

/-- A decidable property of the result of a closed program. -/
@[elab_as_elim]
theorem of_ok {x : Except ε α} {P : α → Prop} [DecidablePred P] (h : x = .ok a)
    (hp : x.toOption.any (fun a => decide (P a)) = true) : P a := by
  subst h
  exact of_decide_eq_true hp

@[simp] theorem orThrow_none (e : ε) : (orThrow e none : EStateM ε σ α) = throw e := rfl

end Running

def Yields (P Q : σ → Prop) (x : EStateM ε σ α) : Prop := ∀ s, P s → Q (state (x s))

/-- The program keeps `I` on every outcome. -/
abbrev Keeps (I : σ → Prop) (x : EStateM ε σ α) : Prop := Yields I I x

/-- The program does not change what `π` reads, on any outcome. -/
def Leaves (π : σ → γ) (x : EStateM ε σ α) : Prop := ∀ s, π (state (x s)) = π s

variable {y : Except ε' α}

section Yields

variable {P P' Q I : σ → Prop}

/-- The first program may throw, so its postcondition has to give the last one. -/
theorem Yields.bind (hx : Yields P P' x) (hQ : ∀ s, P' s → Q s)
    (hf : ∀ a, Yields P' Q (f a)) : Yields P Q (x >>= f) := by
  intro s hs
  have hx' := hx s hs
  cases h : x s with
  | ok a s' =>
    rw [bind_ok h]
    exact hf a s' (by simpa [h] using hx')
  | error e s' =>
    rw [bind_error h]
    exact hQ _ (by simpa [h] using hx')

theorem Yields.of_get {f : σ → EStateM ε σ β} (hf : ∀ s, P s → Q (state (f s s))) : Yields P Q (get >>= f) := by
  intro s hs
  rw [get_bind]
  exact hf s hs

theorem Keeps.pure (a : α) : Keeps I (pure a : EStateM ε σ α) := fun _ h => h

theorem Keeps.throw (e : ε) : Keeps I (throw e : EStateM ε σ α) := fun _ h => h

theorem Keeps.get : Keeps I (get : EStateM ε σ σ) := fun _ h => h

theorem Yields.modify {f : σ → σ} (h : ∀ s, P s → Q (f s)) : Yields P Q (modify f : EStateM ε σ PUnit) := h

theorem Keeps.bind (hx : Keeps I x) (hf : ∀ a, Keeps I (f a)) : Keeps I (x >>= f) := Yields.bind hx (fun _ h => h) hf

theorem Keeps.forM {f : α → EStateM ε σ PUnit} (hf : ∀ a, Keeps I (f a)) : Keeps I (items.forM f) := by
  induction items with
  | nil => exact Keeps.pure _
  | cons item items ih => exact (hf item).bind fun _ => ih

theorem Yields.attempt (hx : Yields P Q x) : Yields P Q (attempt x) := by
  intro s hs
  rw [attempt_apply]
  exact hx s hs

theorem Yields.discard (hx : Yields P Q x) : Yields P Q (discard x) := by
  intro s hs
  rw [state_discard]
  exact hx s hs

theorem Keeps.liftExcept (f : ε' → ε) (y : Except ε' α) : Keeps I (liftExcept f y : EStateM ε σ α) := by
  cases y with
  | ok a => exact Keeps.pure a
  | error e => exact Keeps.throw (f e)

/-- The rest of the program runs only on a value that was returned. -/
theorem Keeps.bind_liftExcept (hf : ∀ a, y = .ok a → Keeps I (f a)) : Keeps I (Effect.liftExcept g y >>= f) := by
  intro s hs
  cases y with
  | ok a => exact hf a rfl s hs
  | error e => exact hs

theorem Keeps.orThrow (e : ε) (y : Option α) : Keeps I (orThrow e y : EStateM ε σ α) := by
  cases y with
  | some a => exact Keeps.pure a
  | none => exact Keeps.throw e

theorem Keeps.ensure (e : ε) (condition : Bool) : Keeps I (ensure e condition : EStateM ε σ Unit) := by
  cases condition with
  | true => exact Keeps.pure ()
  | false => exact Keeps.throw e

theorem Keeps.runIf {y : EStateM ε σ Unit} (condition : Bool) (hy : Keeps I y) : Keeps I (runIf condition y) := by
  cases condition with
  | true => exact hy
  | false => exact Keeps.pure ()

end Yields

variable {π : σ → γ}

theorem Leaves.keeps (h : Leaves π x) (P : γ → Prop) : Keeps (fun s => P (π s)) x := by
  intro s hs
  rw [h s]
  exact hs

theorem leaves_of_keeps (h : ∀ c, Keeps (fun s => π s = c) x) : Leaves π x := fun s => h (π s) s rfl

def Returns (P : σ → Prop) (Q : α → σ → Prop) (x : EStateM ε σ α) : Prop := ∀ s, P s → ∃ a s', x s = .ok a s' ∧ Q a s'

variable {P : σ → Prop} {E : ε → Prop}

section Returns

variable {Q Q' : α → σ → Prop} {R : β → σ → Prop}

theorem Returns.weaken (hx : Returns P Q x) (hQ : ∀ a s, Q a s → Q' a s) : Returns P Q' x := by
  intro s hs
  obtain ⟨a, s', h, hq⟩ := hx s hs
  exact ⟨a, s', h, hQ a s' hq⟩

theorem Returns.bind (hx : Returns P Q x) (hf : ∀ a, Returns (Q a) R (f a)) : Returns P R (x >>= f) := by
  intro s hs
  obtain ⟨a, s', h, hq⟩ := hx s hs
  rw [bind_ok h]
  exact hf a s' hq

theorem Returns.pure (h : ∀ s, P s → Q a s) : Returns P Q (pure a : EStateM ε σ α) := fun s hs => ⟨a, s, rfl, h s hs⟩

theorem Returns.modify {f : σ → σ} {Q : σ → Prop} (h : ∀ s, P s → Q (f s)) :
    Returns P (fun _ => Q) (modify f : EStateM ε σ PUnit) :=
  fun s hs => ⟨⟨⟩, f s, rfl, h s hs⟩

theorem Returns.liftExcept (hy : y = .ok a) (h : ∀ s, P s → Q a s) : Returns P Q (liftExcept g y : EStateM ε σ α) := by
  subst hy
  exact Returns.pure h

theorem Returns.discard {Q : σ → Prop} (hx : Returns P (fun _ => Q) x) : Returns P (fun _ => Q) (discard x) := by
  intro s hs
  obtain ⟨a, s', hok, hq⟩ := hx s hs
  exact ⟨⟨⟩, s', discard_ok hok, hq⟩

end Returns

def Gives (P : σ → Prop) (x : EStateM ε σ α) (a : α) : Prop := ∀ s, P s → ∃ s', x s = .ok a s' ∧ P s'

theorem Gives.outcome (hx : Gives P x a) (hs : P s) : outcome (x s) = .ok a := by
  obtain ⟨s', hs', _⟩ := hx s hs
  rw [hs']
  rfl

theorem Gives.bind (hx : Gives P x a) (hf : Gives P (f a) b) : Gives P (x >>= f) b := by
  intro s hs
  obtain ⟨s', hx', hs'⟩ := hx s hs
  rw [bind_ok hx']
  exact hf s' hs'

theorem Gives.pure : Gives P (pure a : EStateM ε σ α) a := fun s hs => ⟨s, rfl, hs⟩

theorem Gives.of_get {f : σ → EStateM ε σ β} (h : ∀ s, P s → Gives P (f s) b) : Gives P (get >>= f) b :=
  fun s hs => h s hs s hs

theorem Gives.liftExcept (hy : y = .ok a) : Gives P (liftExcept g y : EStateM ε σ α) a := by
  subst hy
  exact Gives.pure

theorem Gives.ensure (hc : condition = true) : Gives P (ensure e condition : EStateM ε σ Unit) () := by
  subst hc
  exact Gives.pure

theorem Gives.focus {R : τ → Prop} {y : EStateM ε' τ α} (hy : Gives R y a) (hview : ∀ s, P s → R (view s))
    (hupdate : ∀ s t, P s → R t → P (update t s)) : Gives P (focus view update g y) a := by
  intro s hs
  obtain ⟨t, ht, hR⟩ := hy (view s) (hview s hs)
  exact ⟨update t s, focus_eq_ok.mpr ⟨t, ht, rfl⟩, hupdate s t hs hR⟩

def Brings (A : α → Prop) (x : EStateM ε σ α) : Prop := ∀ s a s', x s = .ok a s' → A a

section Brings

variable {A : α → Prop} {B : β → Prop}

theorem Brings.pure (h : A a) : Brings A (pure a : EStateM ε σ α) := by
  rintro s b s' hb
  cases hb
  exact h

theorem Brings.later (hf : ∀ a, Brings B (f a)) : Brings B (x >>= f) := by
  intro s b t h
  obtain ⟨a, s', -, hrest⟩ := bind_eq_ok.mp h
  exact hf a s' b t hrest

end Brings

def Errs (E : ε → Prop) (x : EStateM ε σ α) : Prop := ∀ s e s', x s = .error e s' → E e

def Throws (P : σ → Prop) (E : ε → Prop) (x : EStateM ε σ α) : Prop := ∀ s, P s → ∃ e s', x s = .error e s' ∧ E e ∧ P s'

theorem Errs.pure (a : α) : Errs E (pure a : EStateM ε σ α) := by
  intro s e s' h
  cases h

theorem Errs.get : Errs E (get : EStateM ε σ σ) := by
  intro s e s' h
  cases h

theorem Errs.modify (g : σ → σ) : Errs E (modify g : EStateM ε σ PUnit) := by
  intro s e s' h
  cases h

theorem Errs.throw (he : E e) : Errs E (throw e : EStateM ε σ α) := by
  intro s e' s' h
  cases h
  exact he

theorem Errs.ensure (he : E e) (condition : Bool) : Errs E (Effect.ensure e condition : EStateM ε σ Unit) := by
  cases condition with
  | true => exact Errs.pure ()
  | false => exact Errs.throw he

theorem Errs.discard (hx : Errs E x) : Errs E (discard x) := by
  intro s e s' h
  cases hrun : x s with
  | ok a t => rw [discard_ok hrun] at h; cases h
  | error e' t => rw [discard_error hrun] at h; cases h; exact hx s _ _ hrun

theorem Errs.bind (hx : Errs E x) (hf : ∀ a, Errs E (f a)) : Errs E (x >>= f) := by
  intro s e s' h
  cases hrun : x s with
  | ok a t => rw [bind_ok hrun] at h; exact hf a t e s' h
  | error e' t => rw [bind_error hrun] at h; cases h; exact hx s _ _ hrun

theorem Errs.liftExcept (hg : ∀ e, E (g e)) (y : Except ε' α) : Errs E (liftExcept g y : EStateM ε σ α) := by
  intro s e s' h
  cases y with
  | ok a => cases h
  | error e' => cases h; exact hg e'

theorem Errs.focus (hg : ∀ e, E (g e)) (y : EStateM ε' τ α) : Errs E (focus view update g y) := by
  intro s e s' h
  unfold Effect.focus at h
  split at h
  · cases h
  · cases h; exact hg _

theorem Throws.bind (hx : Throws P E x) : Throws P E (x >>= f) := by
  intro s hs
  obtain ⟨e, s', h, he, hp⟩ := hx s hs
  exact ⟨e, s', bind_error h, he, hp⟩

theorem Throws.later (hkeeps : Keeps P x) (herrs : Errs E x) (hf : ∀ a, Throws P E (f a)) : Throws P E (x >>= f) := by
  intro s hs
  have hp := hkeeps s hs
  cases hrun : x s with
  | ok a t =>
    rw [hrun] at hp
    rw [bind_ok hrun]
    exact hf a t hp
  | error e t =>
    rw [hrun] at hp
    exact ⟨e, t, bind_error hrun, herrs s e t hrun, hp⟩

def Obeys (I : σ → Prop) (E : ε → Prop) (x : EStateM ε σ α) : Prop :=
  ∀ s, I s → I (state (x s)) ∧ ∀ e t, x s = .error e t → E e

section Obeys

variable {I : σ → Prop}

theorem obeys_of_errs (hkeeps : Keeps I x) (herrs : Errs E x) : Obeys I E x := fun s hs => ⟨hkeeps s hs, herrs s⟩

theorem Obeys.pure (a : α) : Obeys I E (pure a : EStateM ε σ α) := obeys_of_errs (Keeps.pure a) (Errs.pure a)

theorem Obeys.get : Obeys I E (get : EStateM ε σ σ) := obeys_of_errs Keeps.get Errs.get

theorem Obeys.modify {g : σ → σ} (h : ∀ s, I s → I (g s)) : Obeys I E (modify g : EStateM ε σ PUnit) :=
  obeys_of_errs (Yields.modify h) (Errs.modify g)

theorem Obeys.bind (hx : Obeys I E x) (hf : ∀ a, Obeys I E (f a)) : Obeys I E (x >>= f) := by
  intro s hs
  obtain ⟨hkept, herr⟩ := hx s hs
  cases hrun : x s with
  | ok a t =>
    rw [hrun] at hkept
    rw [bind_ok hrun]
    exact hf a t hkept
  | error e t =>
    rw [hrun] at hkept
    rw [bind_error hrun]
    refine ⟨hkept, fun e' t' h => ?_⟩
    cases h
    exact herr e t hrun

theorem Obeys.liftExcept (hg : ∀ e, E (g e)) (y : Except ε' α) : Obeys I E (Effect.liftExcept g y : EStateM ε σ α) :=
  obeys_of_errs (Keeps.liftExcept g y) (Errs.liftExcept hg y)

theorem Obeys.ensure (he : E e) (condition : Bool) : Obeys I E (Effect.ensure e condition : EStateM ε σ Unit) :=
  obeys_of_errs (Keeps.ensure e condition) (Errs.ensure he condition)

theorem Obeys.attempt (hx : Obeys I E x) : Obeys I E (attempt x) := by
  intro s hs
  have hkept := (hx s hs).1
  cases hrun : x s with
  | ok a t =>
    rw [hrun] at hkept
    rw [attempt_ok hrun]
    exact ⟨hkept, nofun⟩
  | error e t =>
    rw [hrun] at hkept
    rw [attempt_error hrun]
    exact ⟨hkept, nofun⟩

theorem Obeys.discard (hx : Obeys I E x) : Obeys I E (discard x) := by
  intro s hs
  obtain ⟨hkept, herr⟩ := hx s hs
  rw [state_discard]
  refine ⟨hkept, fun e t h => ?_⟩
  cases hrun : x s with
  | ok a t' => rw [discard_ok hrun] at h; cases h
  | error e' t' => rw [discard_error hrun] at h; cases h; exact herr _ _ hrun

theorem Obeys.focus (hI : ∀ t s, I s → I (update t s))
    (hg : ∀ e, E (g e)) (y : EStateM ε' τ α) : Obeys I E (focus view update g y) := by
  refine obeys_of_errs (fun s hs => ?_) (Errs.focus hg y)
  rw [state_focus]
  exact hI _ s hs

end Obeys

theorem Leaves.focus {f : ε' → ε}
    {x : EStateM ε' τ α} (h : ∀ t s, π (update t s) = π s) : Leaves π (focus view update f x) := by
  intro s
  rw [state_focus]
  exact h _ s

end Effect
