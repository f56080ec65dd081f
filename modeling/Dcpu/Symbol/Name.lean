import Dcpu.Text.Basic

/-! Names of labels and equates, local names, and sets of names. -/
namespace Dcpu

namespace Name

/-- A letter, then letters, digits, `_` or `.`. -/
def isValid : Text → Bool
  | [] => false
  | c :: t => c.isAlpha && t.all fun c => c.isAlphanum || c == '_' || c == '.'

/-- A local name `.x` stands for `scope_x`; other names stand for themselves. -/
def qualify (scope : Option Text) : Text → Text
  | '.' :: t => scope.getD [] ++ '_' :: t
  | t => t

end Name

/-- A set of names, in ascending order without repetition. -/
abbrev NameSet := List Text

namespace NameSet

/-- Puts a name that is not in the set where it belongs. -/
def place (n : Text) : NameSet → NameSet
  | [] => [n]
  | m :: ms => if n < m then n :: m :: ms else m :: place n ms

def insert (n : Text) (s : NameSet) : NameSet := if s.contains n then s else place n s

def union (s t : NameSet) : NameSet := t.foldl (fun s n => insert n s) s

theorem mem_place {n m : Text} {s : NameSet} : m ∈ place n s ↔ m = n ∨ m ∈ s := by
  induction s with
  | nil => simp [place]
  | cons k s ih =>
    rw [place]
    split
    next => simp
    next => simp [ih, or_left_comm]

theorem mem_insert {n m : Text} {s : NameSet} : m ∈ insert n s ↔ m = n ∨ m ∈ s := by
  unfold insert
  split
  next h => exact ⟨.inr, fun hm => hm.elim (fun he => he ▸ List.contains_iff_mem.mp h) id⟩
  next => exact mem_place

theorem mem_union {m : Text} {s t : NameSet} : m ∈ union s t ↔ m ∈ s ∨ m ∈ t := by
  induction t generalizing s with
  | nil => simp [union]
  | cons n t ih =>
    have h : union s (n :: t) = union (insert n s) t := rfl
    rw [h, ih, mem_insert, List.mem_cons]
    constructor
    · rintro ((h | h) | h)
      · exact .inr (.inl h)
      · exact .inl h
      · exact .inr (.inr h)
    · rintro (h | h | h)
      · exact .inl (.inr h)
      · exact .inl (.inl h)
      · exact .inr h

end NameSet

end Dcpu
