import Dcpu.Proofs.Evaluation
import Dcpu.Proofs.LayoutSteps

/-! Two programs side by side, of which the second has further lines and further entries without
words. The other lines and entries get higher numbers in it, in the same order. Expressions do not
see the difference. -/
namespace Dcpu

namespace Answer

variable {α β γ δ : Type} {R : α → β → Prop} {S : γ → δ → Prop}

/-- Two computations that are aborted alike or have answers that belong together. -/
inductive Both (R : α → β → Prop) : Except Abort α → Except Abort β → Prop where
  | ok {a : α} {b : β} (h : R a b) : Both R (.ok a) (.ok b)
  | error (x : Abort) : Both R (.error x) (.error x)

theorem Both.bind {x : Except Abort α} {y : Except Abort β} {f : α → Except Abort γ}
    {g : β → Except Abort δ} (h : Both R x y) (hf : ∀ a b, R a b → Both S (f a) (g b)) :
    Both S (x >>= f) (y >>= g) := by
  cases h with
  | ok h => exact hf _ _ h
  | error e => exact .error e

theorem Both.mono {R' : α → β → Prop} {x : Except Abort α} {y : Except Abort β} (h : Both R x y)
    (hR : ∀ a b, R a b → R' a b) : Both R' x y := by
  cases h with
  | ok h => exact .ok (hR _ _ h)
  | error e => exact .error e

/-- A fold in another form, step by step. -/
theorem foldlM_map {m : β → δ} {f : β → α → Except Abort β} {g : δ → α → Except Abort δ}
    (h : ∀ b a, g (m b) a = (f b a).map m) (as : List α) (b : β) :
    as.foldlM g (m b) = (as.foldlM f b).map m := by
  induction as generalizing b with
  | nil => rfl
  | cons a as ih =>
    rw [List.foldlM_cons, List.foldlM_cons, h]
    cases f b a with
    | error e => rfl
    | ok b => exact ih b

theorem Both.with_ok {x : Except Abort α} {y : Except Abort β} (h : Both R x y) :
    Both (fun a b => R a b ∧ x = .ok a ∧ y = .ok b) x y := by
  cases h with
  | ok h => exact .ok ⟨h, rfl, rfl⟩
  | error e => exact .error e

/-- A computation whose answers are those of another one in a different form. -/
theorem Both.map_bind {x : Except Abort α} {y : Except Abort β} {m : α → β}
    {f : α → Except Abort γ} {g : β → Except Abort δ} (hy : y = x.map m)
    (hf : ∀ a, x = .ok a → Both S (f a) (g (m a))) : Both S (x >>= f) (y >>= g) := by
  subst hy
  cases x with
  | ok a => exact hf a rfl
  | error e => exact .error e

end Answer

open Answer

/-- How a program is padded: the numbers that its lines and its entries get, and what is known of
the further entries. -/
structure Padding where
  line : Nat → Nat
  place : Nat → Nat
  IsSpacer : Entry → Prop
  line_lt {a b : Nat} : a < b → line a < line b
  place_lt {a b : Nat} : a < b → place a < place b
  blank {e : Entry} : IsSpacer e → e.body = .blank
  own {e : Entry} : IsSpacer e → e.own = none
  spacer_moveBy {e : Entry} (delta : Int) : IsSpacer e → IsSpacer (e.moveBy delta)

namespace Padding

variable (p : Padding) {a b : Nat}

theorem lt_iff_of_lt {f : Nat → Nat} (hf : ∀ {a b}, a < b → f a < f b) : f a < f b ↔ a < b := by
  constructor
  · intro h
    rcases Nat.lt_trichotomy a b with hlt | rfl | hgt
    · exact hlt
    · exact absurd h (Nat.lt_irrefl _)
    · exact absurd h (Nat.lt_asymm (hf hgt))
  · exact hf

theorem line_lt_iff : p.line a < p.line b ↔ a < b := lt_iff_of_lt p.line_lt

theorem line_le_iff : p.line a ≤ p.line b ↔ a ≤ b := by
  rw [← Nat.not_lt, ← Nat.not_lt, p.line_lt_iff]

theorem line_inj : p.line a = p.line b ↔ a = b := by
  rw [Nat.le_antisymm_iff, p.line_le_iff, p.line_le_iff, ← Nat.le_antisymm_iff]

theorem place_lt_iff : p.place a < p.place b ↔ a < b := lt_iff_of_lt p.place_lt

/-- Nothing is added. -/
def none : Padding where
  line := id
  place := id
  IsSpacer _ := False
  line_lt := id
  place_lt := id
  blank := False.elim
  own := False.elim
  spacer_moveBy _ := id

end Padding

def AnonymousLabel.renumber (p : Padding) (l : AnonymousLabel) : AnonymousLabel :=
  ⟨p.line l.root, l.address, p.place l.position⟩

def Label.renumber (p : Padding) (l : Label) : Label := { l with position := p.place l.position }

namespace SymbolTable

/-- The table of the padded program. -/
def renumber (p : Padding) (s : SymbolTable) : SymbolTable :=
  { s with
    labels := s.labels.map fun (key, l) => (key, l.renumber p)
    anonymous := s.anonymous.map (AnonymousLabel.renumber p) }

/-- Nothing changes if no number of the table does. -/
theorem renumber_eq_self {p : Padding} {s : SymbolTable}
    (hl : ∀ row ∈ s.labels, p.place row.2.position = row.2.position)
    (ha : ∀ l ∈ s.anonymous, p.line l.root = l.root ∧ p.place l.position = l.position) :
    s.renumber p = s := by
  have hlabels : s.labels.map (fun row => (row.1, row.2.renumber p)) = s.labels := by
    refine (List.map_congr_left fun row hrow => ?_).trans (List.map_id _)
    unfold Label.renumber
    rw [hl row hrow]
    rfl
  have hanonymous : s.anonymous.map (AnonymousLabel.renumber p) = s.anonymous := by
    refine (List.map_congr_left fun l hmem => ?_).trans (List.map_id _)
    unfold AnonymousLabel.renumber
    rw [(ha l hmem).1, (ha l hmem).2]
    rfl
  unfold renumber
  rw [hlabels, hanonymous]

theorem renumber_none (s : SymbolTable) : s.renumber .none = s :=
  renumber_eq_self (fun _ _ => rfl) fun _ _ => ⟨rfl, rfl⟩

variable (p : Padding) (s : SymbolTable)

@[simp] theorem scope_renumber : (s.renumber p).scope = s.scope := rfl

theorem markReferenced_renumber (names : List Text) :
    (s.renumber p).markReferenced names = (s.markReferenced names).renumber p := rfl

@[simp] theorem equate?_renumber (name : Text) : (s.renumber p).equate? name = s.equate? name := rfl

@[simp] theorem label?_renumber (name : Text) :
    (s.renumber p).label? name = (s.label? name).map (Label.renumber p) :=
  lookup_map _ _ _

@[simp] theorem isDefined_renumber (name : Text) :
    (s.renumber p).isDefined name = s.isDefined name := by
  simp [isDefined]

theorem defineEquate_renumber (name : Text) (w : Word) :
    (s.renumber p).defineEquate name w =
      ((s.defineEquate name w).1, (s.defineEquate name w).2.renumber p) := by
  unfold defineEquate
  rw [isDefined_renumber]
  split
  · rfl
  · split
    · rfl
    · rfl

theorem defineLabel_renumber (name : Text) (w : Word) (k : Nat) :
    (s.renumber p).defineLabel name w (p.place k) =
      ((s.defineLabel name w k).1, (s.defineLabel name w k).2.renumber p) := by
  have hn : (s.renumber p).storedName? name = s.storedName? name := by
    unfold storedName?
    split
    · rfl
    · rfl
  unfold defineLabel
  rw [hn]
  split
  · rfl
  · rw [isDefined_renumber]
    split
    · rfl
    · rfl

theorem insert_renumber (l : AnonymousLabel) (ls : List AnonymousLabel) :
    (l.renumber p).insert (ls.map (AnonymousLabel.renumber p)) =
      (l.insert ls).map (AnonymousLabel.renumber p) := by
  induction ls with
  | nil => rfl
  | cons m ls ih =>
    have hlt : (m.renumber p).root < (l.renumber p).root ↔ m.root < l.root := p.line_lt_iff
    have heq : (l.renumber p).root = (m.renumber p).root ↔ l.root = m.root := p.line_inj
    rw [List.map_cons, AnonymousLabel.insert, AnonymousLabel.insert, ih]
    simp only [hlt, heq]
    split
    · rfl
    · split
      · rfl
      · rfl

theorem defineAnonymous_renumber (root : Nat) (w : Word) (k : Nat) :
    (s.renumber p).defineAnonymous (p.line root) w (p.place k) =
      (s.defineAnonymous root w k).renumber p := by
  simp only [defineAnonymous, renumber]
  rw [← insert_renumber]
  rfl

theorem forward?_renumber (root n : Nat) :
    (s.renumber p).forward? (p.line root) n = s.forward? root n := by
  have hi : (s.renumber p).anonymous.findIdx (fun l => l.root ≤ p.line root) =
      s.anonymous.findIdx fun l => l.root ≤ root := by
    simp only [renumber, List.findIdx_map, Function.comp_def, AnonymousLabel.renumber,
      p.line_le_iff]
  have hg (i : Nat) : ((s.renumber p).anonymous[i]?).map AnonymousLabel.address =
      s.anonymous[i]?.map AnonymousLabel.address := by
    simp only [renumber, List.getElem?_map, Option.map_map]
    rfl
  rw [forward?, forward?, hi, hg]

theorem backward?_renumber (root n : Nat) :
    (s.renumber p).backward? (p.line root) n = s.backward? root n := by
  have hd : ((s.renumber p).anonymous.dropWhile fun l => p.line root < l.root) =
      (s.anonymous.dropWhile fun l => root < l.root).map (AnonymousLabel.renumber p) := by
    simp only [renumber, List.dropWhile_map, Function.comp_def, AnonymousLabel.renumber,
      p.line_lt_iff]
  simp only [backward?, hd, List.getElem?_map, Option.map_map]
  rfl

theorem shift_renumber (after before : Nat) (delta : Int) :
    (s.renumber p).shift (p.place after) (p.place before) delta =
      (s.shift after before delta).renumber p := by
  have hl (l : Label) : (l.moveBy delta).renumber p = (l.renumber p).moveBy delta := rfl
  have ha (l : AnonymousLabel) : (l.moveBy delta).renumber p = (l.renumber p).moveBy delta := rfl
  simp only [shift, renumber, List.map_map, Function.comp_def, apply_ite (Label.renumber p),
    apply_ite (AnonymousLabel.renumber p), hl, ha]
  simp only [Label.renumber, AnonymousLabel.renumber, p.place_lt_iff]

end SymbolTable

def Position.renumber (p : Padding) (q : Position) : Position := { q with root := p.line q.root }

/-- The function does not look at the numbers of lines and entries. -/
def Function.Unnumbered (f : Function) : Prop :=
  ∀ (p : Padding) (arg : Text) (s : SymbolTable), f arg (s.renumber p) = f arg s

theorem Function.isReferenced_unnumbered : isReferenced.Unnumbered := fun _ _ _ => rfl

namespace Expr.Context

/-- What an expression sees in the padded program. -/
def renumber (p : Padding) (c : Context) : Context :=
  { c with symbols := c.symbols.renumber p, position := c.position.renumber p }

variable (p : Padding) (c : Context)

theorem symbol_renumber (t : Text) : (c.renumber p).symbol t = c.symbol t := by
  unfold symbol
  simp only [renumber, Position.renumber, SymbolTable.equate?_renumber, SymbolTable.label?_renumber]
  cases c.symbols.label? (Text.lower (Name.qualify c.position.scope t)) with
  | none => rfl
  | some l => rfl

theorem walk?_renumber (signs : Text) : (c.renumber p).walk? signs = c.walk? signs := by
  simp only [walk?, renumber, Position.renumber, SymbolTable.forward?_renumber,
    SymbolTable.backward?_renumber]

theorem word_renumber (t : Text) : (c.renumber p).word t = c.word t := by
  simp only [word, symbol_renumber]

theorem token_renumber (t : Text) : (c.renumber p).token t = c.token t := by
  cases hv : c.hooks.value? t with
  | some w =>
    have hv' : (c.renumber p).hooks.value? t = some w := hv
    simp only [token, hv, hv']
  | none =>
    obtain ⟨k, hk⟩ := exists_reading t
    rw [hk c hv, hk (c.renumber p) hv]
    cases k with
    | name => rw [read, read, symbol_renumber]
    | walk signs => rw [read, read, walk?_renumber]
    | word => rw [read, read, word_renumber]
    | _ => rfl

/-- An expression has the same value in the padded program. -/
theorem eval_renumber (hf : ∀ f ∈ c.hooks.functions, f.2.Unnumbered) (text : Text) :
    eval (c.renumber p) text = eval c text := by
  refine eval_congr (c := c) rfl (token_renumber p c) fun f arg hc => ?_
  obtain ⟨name, hn, -⟩ := hc.exists_spelled
  obtain ⟨l₁, l₂, hl, -⟩ := List.lookup_eq_some_iff.mp hn
  exact hf (Text.lower name, f) (by rw [hl]; simp) p arg c.symbols

end Expr.Context

namespace Session

variable {v : Session} (hf : ∀ f ∈ v.hooks.functions, f.2.Unnumbered) (p : Padding)
  (s : SymbolTable) (q : Position) (e : Text)

include hf

theorem eval_renumber :
    v.eval (s.renumber p) (q.renumber p) e =
      (v.eval s q e).map fun (r, t) => (r, t.renumber p) := by
  have h := Expr.Context.eval_renumber p (v.context s q) hf e
  unfold eval
  rw [show Expr.eval ⟨s.renumber p, v.hooks, q.renumber p, v.literal⟩ e =
    Expr.eval (v.context s q) e from h]
  cases Expr.eval (v.context s q) e with
  | error x => rfl
  | ok r => rfl

theorem immediate_renumber :
    v.immediate (s.renumber p) (q.renumber p) e =
      (v.immediate s q e).map fun (r, t) => (r, t.renumber p) := by
  unfold immediate
  rw [eval_renumber hf]
  cases v.eval s q e with
  | error x => rfl
  | ok r =>
    have hu : r.1.fault (r.2.renumber p) = r.1.fault r.2 := by
      simp [Result.fault, Result.hasUndefined]
    simp only [Except.map, bind, Except.bind, pure, Except.pure, hu]

end Session

end Dcpu
