import Mathlib.Data.List.Nodup

namespace PaqusNetwork.Greedy

variable {α σ : Type} (step : σ → α → Option σ) {items : List α}

def accepted : σ → List α → List α
  | _, [] => []
  | current, item :: rest =>
    match step current item with
    | some next => item :: accepted next rest
    | none => accepted current rest

def stateAfter : σ → List α → σ
  | current, [] => current
  | current, item :: rest =>
    match step current item with
    | some next => stateAfter next rest
    | none => stateAfter current rest

variable {step} {current : σ}

/-- The accepted items lead to the state after all items. -/
theorem foldlM_accepted : (accepted step current items).foldlM step current = some (stateAfter step current items) := by
  induction items generalizing current with
  | nil => rfl
  | cons item rest ih =>
    unfold accepted stateAfter
    cases hstep : step current item with
    | none => exact ih
    | some next =>
      rw [List.foldlM_cons, hstep]
      exact ih

end PaqusNetwork.Greedy
