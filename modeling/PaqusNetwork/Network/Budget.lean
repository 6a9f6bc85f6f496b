import PaqusNetwork.Network.Sync

namespace PaqusNetwork

open Effect Numeric Dialogue

/-- In nanoseconds, as are the readings of the clocks. -/
def peerRequestWindow : Nat := 10 * 1000000000

def maxPeerRequestsPerWindow : Nat := 64

/-- The window of one side of a connection, and how often its clock was read. -/
structure RequestBudget where
  windowStarted : Nat
  requestCount : Nat
  clockReads : Nat
  deriving DecidableEq, Repr

def RequestBudget.renewed (clock : Nat → Nat) (budget : RequestBudget) : RequestBudget :=
  if clock budget.clockReads - budget.windowStarted ≥ peerRequestWindow then
    ⟨clock (budget.clockReads + 1), 0, budget.clockReads + 2⟩
  else { budget with clockReads := budget.clockReads + 1 }

/-- `check_request_budget`, and the same steps in the loop of `spawn_inbound_peer`. -/
def checkRequestBudget (limited : String) (clock : Nat → Nat) : EStateM String RequestBudget Unit := do
  modify (RequestBudget.renewed clock)
  modify fun budget => { budget with requestCount := min (budget.requestCount + 1) u32Max }
  let budget ← get
  ensure limited (budget.requestCount ≤ maxPeerRequestsPerWindow)

/-- The number of requests in the window does not exceed the limit. A check that fails leaves it exceeded. -/
def RequestBudget.Within (budget : RequestBudget) : Prop := budget.requestCount ≤ maxPeerRequestsPerWindow

variable {start : Nat}

section Check

variable {limited : String} {clock : Nat → Nat} {budget : RequestBudget}

theorem checkRequestBudget_eq (limited : String) (clock : Nat → Nat) (budget : RequestBudget) :
    checkRequestBudget limited clock budget =
      let counted := { budget.renewed clock with
        requestCount := min ((budget.renewed clock).requestCount + 1) u32Max }
      if counted.requestCount ≤ maxPeerRequestsPerWindow then .ok () counted else .error limited counted := by
  unfold checkRequestBudget
  rw [modify_bind, modify_bind, get_bind]
  dsimp only
  split
  next hle => rw [decide_eq_true hle]; rfl
  next hgt => rw [decide_eq_false hgt]; rfl

theorem RequestBudget.renewed_count_le (clock : Nat → Nat) (budget : RequestBudget) :
    (budget.renewed clock).requestCount ≤ budget.requestCount := by
  unfold RequestBudget.renewed
  split
  · exact Nat.zero_le _
  · exact Nat.le_refl _

theorem checkRequestBudget_room (h : budget.requestCount + 1 ≤ maxPeerRequestsPerWindow) :
    ∃ next, checkRequestBudget limited clock budget = .ok () next ∧
      next.requestCount ≤ budget.requestCount + 1 := by
  have hcount := budget.renewed_count_le clock
  have hmax : maxPeerRequestsPerWindow ≤ u32Max := by decide
  rw [checkRequestBudget_eq]
  refine ⟨_, if_pos ?_, ?_⟩
  · dsimp only
    omega
  · dsimp only
    omega

def RequestBudget.counted (budget : RequestBudget) : RequestBudget :=
  ⟨budget.windowStarted, min (budget.requestCount + 1) u32Max, budget.clockReads + 1⟩

theorem RequestBudget.counted_count (h : budget.Within) : budget.counted.requestCount = budget.requestCount + 1 := by
  have hmax : maxPeerRequestsPerWindow + 1 ≤ u32Max := by decide
  exact Nat.min_eq_left (Nat.le_trans (Nat.succ_le_succ h) hmax)

theorem checkRequestBudget_frozen (hstart : budget.windowStarted = start) :
    checkRequestBudget limited (fun _ => start) budget =
      if budget.counted.requestCount ≤ maxPeerRequestsPerWindow then .ok () budget.counted
      else .error limited budget.counted := by
  subst hstart
  have hsame : budget.renewed (fun _ => budget.windowStarted) =
      { budget with clockReads := budget.clockReads + 1 } := by
    unfold RequestBudget.renewed
    rw [if_neg (by simp [peerRequestWindow])]
  rw [checkRequestBudget_eq, hsame]
  rfl

end Check

end PaqusNetwork
