import Dcpu.Diagnostic

/-! Conditional blocks. -/
namespace Dcpu

/-- An open block: whether the branch being read counts, whether some branch has counted, and
whether the block itself stands where lines count. -/
structure Level where
  active : Bool
  taken : Bool
  parentActive : Bool
  deriving DecidableEq, Repr

/-- The level below all blocks. -/
def Level.sentinel : Level := ⟨true, true, true⟩

/-- The open blocks, the innermost first, and the sentinel behind them. -/
abbrev Conditions := List Level

namespace Conditions

/-- No block is open. -/
def start : Conditions := [.sentinel]

/-- Lines count here. -/
def active (c : Conditions) : Bool := (c.head?.map Level.active).getD true

/-- Opens a block. -/
def enter (c : Conditions) (condition : Bool) : Conditions :=
  let active := c.active && condition
  ⟨active, active, c.active⟩ :: c

/-- The condition of a further branch matters. -/
def wantsBranch : Conditions → Except Fault Bool
  | l :: _ :: _ => .ok (l.parentActive && !l.taken)
  | _ => .error .uncoupledStatement

/-- Goes on to a further branch. Only the first branch of a block whose condition holds counts. -/
def branch (condition : Bool) : Conditions → Except Fault Conditions
  | l :: outer :: ls =>
    let active := l.parentActive && !l.taken && condition
    .ok ({ l with active := active, taken := l.taken || active } :: outer :: ls)
  | _ => .error .uncoupledStatement

/-- Closes the innermost block. -/
def leave : Conditions → Except Fault Conditions
  | _ :: outer :: ls => .ok (outer :: ls)
  | _ => .error .uncoupledStatement

end Conditions

end Dcpu
