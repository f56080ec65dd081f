import Dcpu.Expr.Split

/-! The first group in parentheses of an expression, outside of literals and braces. -/
namespace Dcpu.Expr

/-- The text before the first opening parenthesis, and what follows it. -/
def openGroup : Nat → List Mark → Option (Text × List Mark)
  | _, [] => none
  | braces, m :: ms =>
    if m.isOpenly '(' && braces == 0 then some ([], ms)
    else (openGroup (bracesAfter braces m) ms).map fun (before, rest) => (m.char :: before, rest)

/-- The text up to the parenthesis that closes the group, and the text after it. `depth` counts
the groups inside that are open. -/
def closeGroup : Nat → Nat → List Mark → Option (Text × Text)
  | _, _, [] => none
  | depth, braces, m :: ms =>
    let keep (found : Text × Text) : Text × Text := (m.char :: found.1, found.2)
    if m.isOpenly ')' && braces == 0 then
      match depth with
      | 0 => some ([], Text.unmarked ms)
      | depth + 1 => (closeGroup depth braces ms).map keep
    else if m.isOpenly '(' && braces == 0 then (closeGroup (depth + 1) braces ms).map keep
    else (closeGroup depth (bracesAfter braces m) ms).map keep

structure Group where
  before : Text
  inner : Text
  after : Text
  deriving DecidableEq, Repr

def group? (e : Text) : Option Group := do
  let (before, rest) ← openGroup 0 (Text.marked e)
  let (inner, after) ← closeGroup 0 0 rest
  return ⟨before, inner, after⟩

namespace Group

def text (g : Group) : Text := g.before ++ '(' :: g.inner ++ ')' :: g.after

def isNameChar (c : Char) : Bool := c.isAlphanum || c == '_'

/-- The name right before the parenthesis, which may be empty. -/
def name (g : Group) : Text := (g.before.reverse.takeWhile isNameChar).reverse

/-- The text before that name. -/
def lead (g : Group) : Text := (g.before.reverse.dropWhile isNameChar).reverse

/-- The name follows a character outside of ASCII. -/
def followsWide (g : Group) : Bool := g.lead.getLast?.any fun c => 1 < c.utf8Size

theorem lead_append_name (g : Group) : g.lead ++ g.name = g.before := by
  rw [lead, name, ← List.reverse_append, List.takeWhile_append_dropWhile, List.reverse_reverse]

end Group

theorem openGroup_eq_some {braces : Nat} {ms rest : List Mark} {before : Text}
    (h : openGroup braces ms = some (before, rest)) :
    Text.unmarked ms = before ++ '(' :: Text.unmarked rest := by
  induction ms generalizing braces before with
  | nil => simp [openGroup] at h
  | cons m ms ih =>
    rw [openGroup] at h
    split at h
    next hm =>
      obtain ⟨rfl, rfl⟩ : [] = before ∧ ms = rest := by simpa using h
      simp_all [Text.unmarked, Mark.isOpenly]
    next =>
      obtain ⟨⟨b, r⟩, hr, he⟩ := Option.map_eq_some_iff.mp h
      obtain ⟨rfl, rfl⟩ : m.char :: b = before ∧ r = rest := by simpa using he
      have := ih hr
      simp_all [Text.unmarked]

theorem closeGroup_eq_some {depth braces : Nat} {ms : List Mark} {inner after : Text}
    (h : closeGroup depth braces ms = some (inner, after)) :
    Text.unmarked ms = inner ++ ')' :: after := by
  induction ms generalizing depth braces inner with
  | nil => simp [closeGroup] at h
  | cons m ms ih =>
    have step {d b : Nat} (h : (closeGroup d b ms).map (fun f => (m.char :: f.1, f.2)) =
        some (inner, after)) : Text.unmarked (m :: ms) = inner ++ ')' :: after := by
      obtain ⟨⟨i, a⟩, hr, he⟩ := Option.map_eq_some_iff.mp h
      obtain ⟨rfl, rfl⟩ : m.char :: i = inner ∧ a = after := by simpa using he
      have := ih hr
      simp_all [Text.unmarked]
    unfold closeGroup at h
    split at h
    next hm =>
      split at h
      · obtain ⟨rfl, rfl⟩ : [] = inner ∧ Text.unmarked ms = after := by simpa using h
        simp_all [Text.unmarked, Mark.isOpenly]
      · exact step h
    next =>
      split at h
      · exact step h
      · exact step h

/-- Nothing of the text is lost in a group. -/
theorem text_of_group? {e : Text} {g : Group} (h : group? e = some g) : g.text = e := by
  simp only [group?, Option.bind_eq_bind, Option.bind_eq_some_iff] at h
  obtain ⟨⟨before, rest⟩, ho, ⟨inner, after⟩, hc, hg⟩ := h
  obtain rfl : (⟨before, inner, after⟩ : Group) = g := by simpa using hg
  have h1 := openGroup_eq_some ho
  rw [Text.unmarked_marked, closeGroup_eq_some hc] at h1
  simp [Group.text, h1]

end Dcpu.Expr
