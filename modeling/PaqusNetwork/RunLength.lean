import Mathlib.Data.List.Basic

namespace PaqusNetwork.RunLength

variable {α : Type}

def expand : List (Nat × α) → List α
  | [] => []
  | run :: rest => List.replicate run.1 run.2 ++ expand rest

@[simp] theorem expand_nil : expand ([] : List (Nat × α)) = [] := rfl

@[simp] theorem expand_cons (run : Nat × α) (rest : List (Nat × α)) :
    expand (run :: rest) = List.replicate run.1 run.2 ++ expand rest := rfl

variable [DecidableEq α] (limit : Nat)

def runsFrom (value : α) (count : Nat) : List α → List (Nat × α)
  | [] => [(count, value)]
  | next :: rest =>
    if next = value ∧ count < limit then runsFrom value (count + 1) rest
    else (count, value) :: runsFrom next 1 rest

def runs : List α → List (Nat × α)
  | [] => []
  | value :: rest => runsFrom limit value 1 rest

theorem expand_runsFrom (value : α) (count : Nat) (rest : List α) :
    expand (runsFrom limit value count rest) = List.replicate count value ++ rest := by
  induction rest generalizing value count with
  | nil => simp [runsFrom]
  | cons next rest ih =>
    unfold runsFrom
    split
    next hrun =>
      obtain ⟨rfl, _⟩ := hrun
      rw [ih, List.replicate_succ']
      simp
    next => simp [ih]

theorem expand_runs (list : List α) : expand (runs limit list) = list := by
  cases list with
  | nil => rfl
  | cons value rest => exact expand_runsFrom limit value 1 rest

variable {limit}

theorem runsFrom_bounded (hlimit : 0 < limit) {value : α} {count : Nat} (hcount : 0 < count ∧ count ≤ limit)
    {rest : List α} {run : Nat × α} (h : run ∈ runsFrom limit value count rest) :
    0 < run.1 ∧ run.1 ≤ limit := by
  induction rest generalizing value count with
  | nil =>
    obtain rfl := List.mem_singleton.mp h
    exact hcount
  | cons next rest ih =>
    unfold runsFrom at h
    split at h
    next hrun => exact ih (by omega) h
    next =>
      rcases List.mem_cons.mp h with rfl | hmem
      · exact hcount
      · exact ih (by omega) hmem

theorem runs_bounded (hlimit : 0 < limit) {list : List α} {run : Nat × α} (h : run ∈ runs limit list) :
    0 < run.1 ∧ run.1 ≤ limit := by
  cases list with
  | nil => cases h
  | cons value rest => exact runsFrom_bounded hlimit (by omega) h

end PaqusNetwork.RunLength
