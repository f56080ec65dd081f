import Dcpu.Expr.Group
import Dcpu.Text.Numeral

/-! The forms of an expression, and a weight that every part of a form has less of. -/
namespace Dcpu.Expr

/-- A group comes before everything else, then the sign of a complement, then the operators. -/
inductive Form where
  | empty
  | group (g : Group)
  | complement (operand : Text)
  | negation (operand : Text)
  | binary (s : Split)
  | token (t : Text)
  deriving DecidableEq, Repr

def formOfTrimmed (e : Text) : Form :=
  match group? e with
  | some g => .group g
  | none =>
    match e with
    | [] => .empty
    | '~' :: operand => .complement operand
    | _ =>
      match split? e with
      | some ⟨[], .sub, right⟩ => .negation right
      | some s => .binary s
      | none => .token e

def form (text : Text) : Form := formOfTrimmed (Text.trim text)

/-- Bounds the steps of an evaluation: a group gives way to at most five digits. -/
def weight (e : Text) : Nat := e.length + 4 * e.count '('

theorem weight_le_of_sublist {s t : Text} (h : s.Sublist t) : weight s ≤ weight t := by
  have := h.length_le
  have := h.count_le '('
  unfold weight
  omega

theorem trim_sublist (t : Text) : (Text.trim t).Sublist t := by
  refine List.Sublist.trans ?_ (List.dropWhile_sublist Text.isBlank)
  have h := (List.dropWhile_sublist Text.isBlank (l := (Text.trimStart t).reverse)).reverse
  rwa [List.reverse_reverse] at h

theorem weight_trim_le (t : Text) : weight (Text.trim t) ≤ weight t :=
  weight_le_of_sublist (trim_sublist t)

theorem weight_append (s t : Text) : weight (s ++ t) = weight s + weight t := by
  simp only [weight, List.length_append, List.count_append]
  omega

theorem count_decimal (n : Nat) : (Numeral.decimal n).count '(' = 0 := by
  rw [List.count_eq_zero]
  exact fun h => absurd (Numeral.isDigit_of_mem_decimal h) (by decide)

theorem weight_decimal_le (w : Word) : weight (Numeral.decimal w.toNat) ≤ 5 := by
  have := Numeral.length_decimal_le w
  rw [weight, count_decimal]
  omega

theorem weight_group (g : Group) :
    weight g.text = weight g.before + weight g.inner + weight g.after + 6 := by
  simp only [Group.text, weight, List.length_append, List.length_cons, List.count_append,
    List.count_cons]
  simp only [beq_self_eq_true, if_true, show (')' == '(') = false by decide]
  simp only [Bool.false_eq_true, if_false]
  omega

theorem weight_lead_le (g : Group) : weight g.lead ≤ weight g.before := by
  refine weight_le_of_sublist ?_
  have h := (List.dropWhile_sublist Group.isNameChar (l := g.before.reverse)).reverse
  rwa [List.reverse_reverse] at h

/-- The text that a form is made of. -/
def Form.parts : Form → List Text
  | .empty | .token _ => []
  | .group g => [g.inner]
  | .complement operand | .negation operand => [operand]
  | .binary s => [s.left, s.right]

theorem sublist_of_split? {e part : Text} {s : Split} (h : split? e = some s)
    (hp : part = s.left ∨ part = s.right) : part.Sublist e ∧ part.length < e.length := by
  have hop := s.op.length_symbol_pos
  rw [← text_of_split? h]
  obtain rfl | rfl := hp
  · exact ⟨by simp [List.append_assoc], by simp; omega⟩
  · exact ⟨by simp, by simp; omega⟩

theorem sublist_of_mem_parts_trimmed {e part : Text} (h : part ∈ (formOfTrimmed e).parts) :
    part.Sublist e ∧ part.length < e.length := by
  unfold formOfTrimmed at h
  split at h
  next g hg =>
    obtain rfl : part = g.inner := by simpa [Form.parts] using h
    rw [← text_of_group? hg, Group.text]
    refine ⟨?_, by simp; omega⟩
    have hs : g.inner.Sublist ('(' :: g.inner) := List.sublist_cons_self _ _
    exact (hs.trans (List.sublist_append_right _ _)).trans (List.sublist_append_left _ _)
  next =>
    split at h
    · simp [Form.parts] at h
    next operand _ =>
      obtain rfl : part = operand := by simpa [Form.parts] using h
      exact ⟨List.sublist_cons_self _ _, by simp⟩
    next =>
      split at h
      next hs => exact sublist_of_split? hs (.inr (by simpa [Form.parts] using h))
      next hs => exact sublist_of_split? hs (by simpa [Form.parts] using h)
      · simp [Form.parts] at h

/-- A part stands in the expression and is not all of it. -/
theorem sublist_of_mem_parts {text part : Text} (h : part ∈ (form text).parts) :
    part.Sublist text ∧ part.length < text.length := by
  obtain ⟨hs, hl⟩ := sublist_of_mem_parts_trimmed h
  exact ⟨hs.trans (trim_sublist text), Nat.lt_of_lt_of_le hl (trim_sublist text).length_le⟩

/-- Every part is lighter than the expression. -/
theorem weight_part_lt {text part : Text} (h : part ∈ (form text).parts) :
    weight part < weight text := by
  obtain ⟨hs, hl⟩ := sublist_of_mem_parts h
  have := hs.count_le '('
  unfold weight
  omega

theorem group?_of_form {text : Text} {g : Group} (h : form text = .group g) :
    group? (Text.trim text) = some g := by
  unfold form formOfTrimmed at h
  split at h
  next hg =>
    obtain rfl := Form.group.inj h
    exact hg
  next =>
    split at h
    · nomatch h
    · nomatch h
    · split at h <;> nomatch h

/-- Putting a value in the place of a group makes the text lighter. -/
theorem weight_replace_lt {text lead : Text} {g : Group} (h : form text = .group g)
    (hl : weight lead ≤ weight g.before) (w : Word) :
    weight (lead ++ Numeral.decimal w.toNat ++ g.after) < weight text := by
  refine Nat.lt_of_lt_of_le ?_ (weight_trim_le text)
  rw [← text_of_group? (group?_of_form h), weight_group, weight_append, weight_append]
  have := weight_decimal_le w
  omega

end Dcpu.Expr
