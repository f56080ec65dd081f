import Dcpu.Text.Basic

/-! Why a run can end without an answer. -/
namespace Dcpu

/-- A called name cannot be told apart from a character outside of ASCII right before it; the
budget of steps can run out; a file can be one whose contents are not known yet. -/
inductive Abort where
  | brokenName
  | outOfSteps
  | unread (path : Text)
  deriving DecidableEq, Repr

end Dcpu
