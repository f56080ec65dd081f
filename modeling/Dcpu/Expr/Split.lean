import Dcpu.Expr.Operator
import Dcpu.Text.Quote

/-! The operator at which an expression is split. Operators inside of literals, inside of braces
and in the signs of `$++` or `$--` do not count. -/
namespace Dcpu.Expr

/-- The number of open braces after a character. -/
def bracesAfter (braces : Nat) (m : Mark) : Nat :=
  if m.isOpenly '{' then braces + 1
  else if m.isOpenly '}' then braces - 1
  else braces

def isSign (c : Char) : Bool := c == '+' || c == '-'

/-- White space of ASCII, without the vertical tab. -/
def isAsciiBlank (c : Char) : Bool :=
  c == ' ' || c == '\t' || c == '\n' || c == '\x0c' || c == '\r'

/-- The number of signs after a `$` that belong to it: all of a run that ends at white space or at
the end of the text. -/
def walkLength (after : List Mark) : Nat :=
  let run := after.takeWhile fun m => isSign m.char
  match after.drop run.length with
  | [] => run.length
  | m :: _ => if isAsciiBlank m.char then run.length else 0

/-- Marks the characters at which an operator can start. `skip` of the next characters belong to
a `$`. -/
def sitesFrom : Nat → Nat → List Mark → List Mark
  | _, _, [] => []
  | braces, skip + 1, m :: ms => ⟨m.char, false⟩ :: sitesFrom braces skip ms
  | braces, 0, m :: ms =>
    if m.isOpenly '$' && braces == 0 then ⟨m.char, false⟩ :: sitesFrom braces (walkLength ms) ms
    else
      let site := m.free && braces == 0 && m.char != '{' && m.char != '}'
      ⟨m.char, site⟩ :: sitesFrom (bracesAfter braces m) 0 ms

def sites (e : Text) : List Mark := sitesFrom 0 0 (Text.marked e)

def startsWith : Text → List Mark → Bool
  | [], _ => true
  | _ :: _, [] => false
  | c :: cs, m :: ms => c == m.char && startsWith cs ms

/-- The index of the first site at which the symbol stands. -/
def siteOf? (symbol : Text) : List Mark → Option Nat
  | [] => none
  | m :: ms =>
    if m.free && startsWith symbol (m :: ms) then some 0 else (siteOf? symbol ms).map (· + 1)

/-- A later operator takes over only if it is longer and starts no later. -/
def betterSplit (ms : List Mark) (best : Option (Nat × Operator)) (op : Operator) :
    Option (Nat × Operator) :=
  match siteOf? op.symbol ms, best with
  | none, _ => best
  | some i, none => some (i, op)
  | some i, some (start, chosen) =>
    if start < i || op.symbol.length ≤ chosen.symbol.length then best else some (i, op)

/-- Two operands and the operator between them. -/
structure Split where
  left : Text
  op : Operator
  right : Text
  deriving DecidableEq, Repr

def split? (e : Text) : Option Split :=
  (Operator.all.foldl (betterSplit (sites e)) none).map fun (i, op) =>
    ⟨e.take i, op, e.drop (i + op.symbol.length)⟩

@[simp] theorem unmarked_sitesFrom (braces skip : Nat) (ms : List Mark) :
    Text.unmarked (sitesFrom braces skip ms) = Text.unmarked ms := by
  induction ms generalizing braces skip with
  | nil => cases skip <;> rfl
  | cons m ms ih =>
    cases skip with
    | succ skip => simpa [sitesFrom, Text.unmarked] using ih braces skip
    | zero =>
      rw [sitesFrom]
      split
      · simpa [Text.unmarked] using ih braces (walkLength ms)
      · simpa [Text.unmarked] using ih (bracesAfter braces m) 0

@[simp] theorem unmarked_sites (e : Text) : Text.unmarked (sites e) = e := by simp [sites]

theorem exists_append_of_startsWith {symbol : Text} {ms : List Mark}
    (h : startsWith symbol ms = true) : ∃ rest, Text.unmarked ms = symbol ++ rest := by
  induction symbol generalizing ms with
  | nil => exact ⟨_, rfl⟩
  | cons c cs ih =>
    cases ms with
    | nil => simp [startsWith] at h
    | cons m ms =>
      obtain ⟨hc, hs⟩ := Bool.and_eq_true_iff.mp h
      obtain ⟨rest, hr⟩ := ih hs
      refine ⟨rest, ?_⟩
      simp_all [Text.unmarked]

theorem exists_append_of_siteOf? {symbol : Text} {ms : List Mark} {i : Nat}
    (h : siteOf? symbol ms = some i) :
    ∃ rest, Text.unmarked ms = (Text.unmarked ms).take i ++ symbol ++ rest := by
  induction ms generalizing i with
  | nil => simp [siteOf?] at h
  | cons m ms ih =>
    rw [siteOf?] at h
    split at h
    next hm =>
      obtain rfl : 0 = i := by simpa using h
      obtain ⟨rest, hr⟩ := exists_append_of_startsWith (Bool.and_eq_true_iff.mp hm).2
      exact ⟨rest, by simpa using hr⟩
    next =>
      obtain ⟨j, hj, rfl⟩ := Option.map_eq_some_iff.mp h
      obtain ⟨rest, hr⟩ := ih hj
      exact ⟨rest, by simpa [Text.unmarked] using hr⟩

theorem siteOf?_of_betterSplit {ms : List Mark} {best : Option (Nat × Operator)} {op : Operator}
    (hb : ∀ s ∈ best, siteOf? s.2.symbol ms = some s.1) :
    ∀ s ∈ betterSplit ms best op, siteOf? s.2.symbol ms = some s.1 := by
  intro s hs
  unfold betterSplit at hs
  split at hs
  · exact hb s hs
  next i hi =>
    obtain rfl : (i, op) = s := by simpa using hs
    exact hi
  next i start chosen hi =>
    split at hs
    · exact hb s hs
    · obtain rfl : (i, op) = s := by simpa using hs
      exact hi

theorem siteOf?_of_foldl_betterSplit {ms : List Mark} {ops : List Operator}
    {best : Option (Nat × Operator)} (hb : ∀ s ∈ best, siteOf? s.2.symbol ms = some s.1) :
    ∀ s ∈ ops.foldl (betterSplit ms) best, siteOf? s.2.symbol ms = some s.1 := by
  induction ops generalizing best with
  | nil => exact hb
  | cons op ops ih => exact ih (siteOf?_of_betterSplit hb)

/-- Nothing of the text is lost in a split. -/
theorem text_of_split? {e : Text} {s : Split} (h : split? e = some s) :
    s.left ++ s.op.symbol ++ s.right = e := by
  obtain ⟨⟨i, op⟩, hi, rfl⟩ := Option.map_eq_some_iff.mp h
  have hs := siteOf?_of_foldl_betterSplit (by simp) (i, op) hi
  obtain ⟨rest, hr⟩ := exists_append_of_siteOf? hs
  rw [unmarked_sites] at hr
  have hd : e.drop i = op.symbol ++ rest := by
    have := congrArg (List.drop (e.take i).length) hr
    rw [List.append_assoc, List.drop_left] at this
    have hi' : (e.take i).length = i ∨ e.drop i = [] := by
      rw [List.length_take, List.drop_eq_nil_iff]; omega
    rcases hi' with hl | hl
    · rwa [hl] at this
    · have he := congrArg List.length hr
      have hp := op.length_symbol_pos
      have := congrArg List.length hl
      simp at he this
      omega
  have ht : e.drop (i + op.symbol.length) = rest := by
    rw [← List.drop_drop, hd, List.drop_left]
  show e.take i ++ op.symbol ++ e.drop (i + op.symbol.length) = e
  rw [ht]
  exact hr.symm

end Dcpu.Expr
