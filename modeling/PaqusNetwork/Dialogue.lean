import PaqusNetwork.Effect

namespace PaqusNetwork

open Effect

/-- A program that asks messages `M`, gets replies `R`, and ends with a result or an error. -/
inductive Dialogue (M R ε α : Type) : Type
  | finished (result : Except ε α)
  | asking (message : M) (next : R → Dialogue M R ε α)

namespace Dialogue

variable {M R ε α β : Type}

def ask (message : M) : Dialogue M R ε R := asking message fun reply => finished (.ok reply)

def fail (error : ε) : Dialogue M R ε α := finished (.error error)

def bind (dialogue : Dialogue M R ε α) (continuation : α → Dialogue M R ε β) : Dialogue M R ε β :=
  match dialogue with
  | finished (.ok a) => continuation a
  | finished (.error error) => finished (.error error)
  | asking message next => asking message fun reply => (next reply).bind continuation

instance : Monad (Dialogue M R ε) where
  pure a := finished (.ok a)
  bind := bind

variable {σ : Type} (request : M → EStateM ε σ R)

/-- The program with its questions asked in a state. -/
def run : Dialogue M R ε α → EStateM ε σ α
  | finished (.ok a) => pure a
  | finished (.error error) => throw error
  | asking message next => do
    let reply ← request message
    (next reply).run

/-- The number of questions asked from a state on, the one that fails included. -/
def turns : Dialogue M R ε α → σ → Nat
  | finished _, _ => 0
  | asking message next, s =>
    match request message s with
    | .ok reply s' => (next reply).turns s' + 1
    | .error _ _ => 1

@[simp] theorem run_pure (a : α) : (pure a : Dialogue M R ε α).run request = pure a := rfl

@[simp] theorem run_fail (error : ε) : (fail error : Dialogue M R ε α).run request = throw error := rfl

@[simp] theorem run_ask (message : M) : (ask message : Dialogue M R ε R).run request = request message := by
  funext s
  change (request message >>= pure) s = _
  rw [bind_pure]

@[simp] theorem run_bind (dialogue : Dialogue M R ε α) (continuation : α → Dialogue M R ε β) :
    (dialogue >>= continuation).run request =
      dialogue.run request >>= fun a => (continuation a).run request := by
  induction dialogue with
  | finished result =>
    cases result with
    | ok a => rfl
    | error error => rfl
  | asking message next ih =>
    change (request message >>= fun reply => ((next reply).bind continuation).run request) = _
    change _ = (request message >>= fun reply => (next reply).run request) >>= _
    rw [bind_assoc]
    exact congrArg _ (funext ih)

theorem turns_ask_bind (message : M) (continuation : R → Dialogue M R ε α) (s : σ) :
    (ask message >>= continuation).turns request s =
      match request message s with
      | .ok reply s' => (continuation reply).turns request s' + 1
      | .error _ _ => 1 := by
  change (asking message continuation).turns request s = _
  rw [turns]

theorem finished_ok_bind (a : α) (continuation : α → Dialogue M R ε β) :
    (finished (.ok a) >>= continuation) = continuation a := rfl

theorem finished_error_bind (error : ε) (continuation : α → Dialogue M R ε β) :
    (finished (.error error) >>= continuation) = finished (.error error) := rfl

theorem turns_bind (dialogue : Dialogue M R ε α) (continuation : α → Dialogue M R ε β) (s : σ) :
    (dialogue >>= continuation).turns request s = dialogue.turns request s +
      match dialogue.run request s with
      | .ok a s' => (continuation a).turns request s'
      | .error _ _ => 0 := by
  induction dialogue generalizing s with
  | finished result =>
    cases result with
    | ok a => exact (Nat.zero_add _).symm
    | error error => rfl
  | asking message next ih =>
    change (asking message fun reply => (next reply).bind continuation).turns request s = _
    simp only [turns, run]
    cases hreply : request message s with
    | error error s' =>
      rw [bind_error hreply]
      rfl
    | ok reply s' =>
      rw [bind_ok hreply]
      have hnext := ih reply s'
      change ((next reply).bind continuation).turns request s' = _ at hnext
      dsimp only
      omega

theorem run_keeps {I : σ → Prop} (h : ∀ message, Keeps I (request message)) (dialogue : Dialogue M R ε α) :
    Keeps I (dialogue.run request) := by
  induction dialogue with
  | finished result =>
    cases result with
    | ok a => exact Keeps.pure a
    | error error => exact Keeps.throw error
  | asking message next ih => exact Keeps.bind (h message) ih

theorem turns_asking_pos {message : M} {next : R → Dialogue M R ε α} {s : σ} :
    0 < (asking message next).turns request s := by
  unfold turns
  split
  · exact Nat.succ_pos _
  · exact Nat.one_pos

end Dialogue

end PaqusNetwork
