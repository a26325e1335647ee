import Attest.Defect

/-! How deep what is read may be nested. Every level takes room, and all share the same. -/

namespace Attest.Nesting

/-- The room there is before the first level. -/
def room : Nat := 980

/-- The room that is left inside a level that takes `cost`; `activity` is what finds too little. -/
def enter (cost room : Nat) (activity : String) : Except Defect Nat :=
  if room < cost then .error (.tooDeep activity) else .ok (room - cost)

theorem enter_eq_ok {cost room : Nat} {activity : String} (h : cost ≤ room) :
    enter cost room activity = .ok (room - cost) := by
  simp [enter, Nat.not_lt.2 h]

@[simp] theorem enter_one_zero (activity : String) : enter 1 0 activity = .error (.tooDeep activity) :=
  rfl

@[simp] theorem enter_one_succ (room : Nat) (activity : String) :
    enter 1 (room + 1) activity = .ok room :=
  enter_eq_ok (Nat.le_add_left 1 room)

end Attest.Nesting
