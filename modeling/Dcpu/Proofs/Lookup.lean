import Dcpu.Proofs.Bindings
import Dcpu.Proofs.Substitution

/-! What can be defined can be referred to. A name that a table has accepted is read as one word and
found in every spelling, whatever else has been done with the table. -/
namespace Dcpu

namespace Text

variable {t u : Text}

theorem ne_nil_of_lower (h : lower u = lower t) (ht : t ≠ []) : u ≠ [] := by
  rintro rfl
  exact ht (List.map_eq_nil_iff.mp h.symm)

theorem isWordChar_of_lower (h : lower u = lower t) (ht : ∀ c ∈ t, isWordChar c = true) :
    ∀ c ∈ u, isWordChar c = true := by
  intro c hc
  have hm : c.toLower ∈ lower t := h ▸ List.mem_map_of_mem hc
  obtain ⟨x, hx, hxc⟩ := List.mem_map.mp hm
  rw [← isWordChar_toLower, ← hxc, isWordChar_toLower]
  exact ht x hx

/-- Characters that are no letters are the same in every spelling. -/
theorem head?_of_lower (h : lower u = lower t) {c : Char} (hc : c.isAlpha = false)
    (hu : u.head? = some c) : t.head? = some c := by
  obtain ⟨u, rfl⟩ := List.head?_eq_some_iff.mp hu
  obtain ⟨x, t, rfl, hx, -⟩ := List.map_eq_cons_iff.mp h.symm
  have hlower : c.toLower = c := (toLower_eq_iff hc).mpr rfl
  rw [List.head?_cons, (toLower_eq_iff hc).mp (hx.trans hlower)]

end Text

namespace Name

variable {t u : Text} {scope : Option Text}

/-- Spellings of one name stand for spellings of one name. -/
theorem lower_qualify (h : Text.lower u = Text.lower t) :
    Text.lower (qualify scope u) = Text.lower (qualify scope t) := by
  by_cases hu : u.head? = some '.'
  · have ht := Text.head?_of_lower h (by decide) hu
    obtain ⟨u, rfl⟩ := List.head?_eq_some_iff.mp hu
    obtain ⟨t, rfl⟩ := List.head?_eq_some_iff.mp ht
    obtain ⟨-, h⟩ := List.cons.inj h
    show Text.lower (scope.getD [] ++ '_' :: u) = Text.lower (scope.getD [] ++ '_' :: t)
    unfold Text.lower
    rw [List.map_append, List.map_append, List.map_cons, List.map_cons, h]
  · have ht : t.head? ≠ some '.' := fun ht => hu (Text.head?_of_lower h.symm (by decide) ht)
    rw [qualify_of_global hu, qualify_of_global ht, h]

/-- A name as it can be written in an expression: a word that does not start like a number. -/
structure IsReference (t : Text) : Prop where
  ne_nil : t ≠ []
  word : ∀ c ∈ t, Text.isWordChar c = true
  head : ∀ c ∈ t.head?, c.isDigit = false

theorem isReference_of_isValid (h : isValid t = true) : IsReference t := by
  have hword := isWordChar_of_isStored (isStored_of_isValid h)
  cases t with
  | nil => cases h
  | cons c t =>
    obtain ⟨hc, -⟩ := Bool.and_eq_true_iff.mp h
    refine ⟨List.cons_ne_nil c t, hword, ?_⟩
    rintro x ⟨⟩
    rw [← Bool.not_eq_true]
    intro hd
    rw [Text.isAlpha_of_isDigit hd] at hc
    cases hc

theorem isReference_local (h : isValid t = true) : IsReference ('.' :: t) where
  ne_nil := List.cons_ne_nil _ _
  word := List.forall_mem_cons.mpr ⟨by decide, (isReference_of_isValid h).word⟩
  head := by
    rintro x ⟨⟩
    decide

theorem IsReference.of_lower (h : Text.lower u = Text.lower t) (ht : IsReference t) :
    IsReference u where
  ne_nil := Text.ne_nil_of_lower h ht.ne_nil
  word := Text.isWordChar_of_lower h ht.word
  head c hc := by
    by_contra hd
    have hd : c.isDigit = true := by simpa using hd
    have hc := Text.head?_of_lower h (Text.isAlpha_of_isDigit hd) hc
    rw [ht.head c hc] at hd
    cases hd

end Name

/-- A reference is evaluated by looking up its name. -/
theorem Expr.eval_reference {c : Context} {t : Text} (ht : Name.IsReference t)
    (hv : c.hooks.value? t = none) (hword : Text.lower t ∉ ["true".toList, "false".toList]) :
    eval c t = .ok (c.symbol t) := by
  obtain ⟨htrue, hfalse⟩ : Text.lower t ≠ "true".toList ∧ Text.lower t ≠ "false".toList := by
    simpa using hword
  have hdigit : ¬ t.head?.any Char.isDigit = true := by
    intro h
    obtain ⟨x, hx, hd⟩ := (Option.any_eq_true _ _).mp h
    rw [ht.head x hx] at hd
    cases hd
  rw [eval_token (form_word ht.ne_nil ht.word), Context.token_word ht.word hv, Context.word,
    if_neg hdigit, if_neg htrue, if_neg hfalse]

namespace SymbolTable

/-- The name that an operation is to define. -/
def Operation.name? : Operation → Option Text
  | .equate name _ => some name
  | .label name _ _ => some name
  | _ => none

/-- What a definition has bound `stored` to, as the table has it after further operations: the
value, and whether it is an address. -/
inductive Bound (s : SymbolTable) (stored : Text) (after : List Operation) :
    Operation → Word → Bool → Prop where
  | equate {name : Text} {value : Word} (h : s.equate? stored = some value) :
      Bound s stored after (.equate name value) value false
  | label {name : Text} {address : Word} {position : Nat} {l : Label}
      (h : s.label? stored = some l) (hn : l.name = stored)
      (ha : l.address = address.move (movement position after)) :
      Bound s stored after (.label name address position) l.address true

section Define

variable {s : SymbolTable} {op : Operation} {name : Text}

theorem run_append (s : SymbolTable) (ops ops' : List Operation) :
    s.run (ops ++ ops') = (s.run ops).run ops' := by
  induction ops generalizing s with
  | nil => rfl
  | cons op ops ih => exact ih _

theorem keyed_run_empty (ops : List Operation) : (({} : SymbolTable).run ops).Keyed := by
  have hempty : ({} : SymbolTable).Keyed := ⟨List.nodup_nil, by simp [keys], by simp⟩
  exact hempty.run ops

/-- A definition is accepted only if its name can be written in an expression. -/
theorem isReference_of_perform (hop : op.name? = some name) (hok : (s.perform op).1 = none) :
    Name.IsReference name := by
  have hp := s.performs op
  rw [hok] at hp
  generalize (s.perform op).2 = t at hp
  cases hp with
  | equate h =>
    obtain rfl := Option.some.inj hop
    exact Name.isReference_of_isValid (defineEquate_eq_ok.mp h).1
  | label h =>
    obtain rfl := Option.some.inj hop
    obtain ⟨hstored, -⟩ := defineLabel_eq_ok.mp h
    unfold storedName? at hstored
    split at hstored
    · exact Name.isReference_local (Option.ite_none_right_eq_some.mp hstored).1
    · exact Name.isReference_of_isValid (Option.ite_none_right_eq_some.mp hstored).1
  | _ => cases hop

/-- What a definition has bound stays bound, and labels move with the shifts over them. -/
theorem bound_run (hop : op.name? = some name) (hok : (s.perform op).1 = none)
    (after : List Operation) :
    ∃ w movable, Bound ((s.perform op).2.run after) (Name.qualify s.scope name) after op w movable := by
  have hp := s.performs op
  rw [hok] at hp
  generalize (s.perform op).2 = t at hp ⊢
  cases hp with
  | @equate n value _ h =>
    obtain rfl := Option.some.inj hop
    obtain ⟨hvalid, -, rfl⟩ := defineEquate_eq_ok.mp h
    refine ⟨value, false, .equate (equate?_run ?_ after)⟩
    have hglobal : n.head? ≠ some '.' := by
      intro hn
      obtain ⟨u, rfl⟩ := List.head?_eq_some_iff.mp hn
      cases hvalid
    rw [Name.qualify_of_global hglobal]
    exact List.lookup_cons_self
  | @label n stored address position _ h =>
    obtain rfl := Option.some.inj hop
    obtain ⟨hstored, -, rfl⟩ := defineLabel_eq_ok.mp h
    obtain rfl := eq_qualify_of_storedName? hstored
    refine ⟨_, true, .label (label?_run (l := ⟨_, address, position⟩) ?_ after) rfl rfl⟩
    exact List.lookup_cons_self
  | _ => cases hop

end Define

/-- A name that stands for a bound one has its value. -/
theorem Bound.symbol {c : Expr.Context} {stored t : Text} {after : List Operation} {op : Operation}
    {w : Word} {movable : Bool} (h : c.symbols.Bound stored after op w movable)
    (hs : c.symbols.Keyed) (ht : Text.lower (Name.qualify c.position.scope t) = Text.lower stored) :
    c.symbol t =
      { value := w, ok := true, references := [Text.lower stored], relocatable := movable } := by
  have he : c.symbols.equate? (Text.lower stored) = c.symbols.equate? stored := by
    rw [equate?, Text.lower_lower, equate?]
  have hl : c.symbols.label? (Text.lower stored) = c.symbols.label? stored := by
    rw [label?, Text.lower_lower, label?]
  unfold Expr.Context.symbol
  rw [ht]
  dsimp only
  rw [he, hl]
  cases h with
  | equate h =>
    rw [h]
    rfl
  | label h =>
    have hnone : c.symbols.equate? stored = none :=
      Option.eq_none_iff_forall_ne_some.mpr fun _ he => hs.disjoint he h
    rw [hnone, h]
    rfl

/-- Define a name in any table, do anything with the table after that, and evaluate the name in any
spelling, a local name in the scope that it was defined in. It has the value that it was bound to,
which for labels is their current address. -/
theorem eval_defined (before after : List Operation) (op : Operation) {name variant : Text}
    {c : Expr.Context} (hop : op.name? = some name)
    (hok : ((({} : SymbolTable).run before).perform op).1 = none)
    (hs : c.symbols = ({} : SymbolTable).run (before ++ op :: after))
    (hscope : name.head? = some '.' → c.position.scope = (({} : SymbolTable).run before).scope)
    (hv : c.hooks.value? variant = none) (hcase : Text.lower variant = Text.lower name)
    (hword : Text.lower variant ∉ ["true".toList, "false".toList]) :
    ∃ w movable stored, stored = Name.qualify (({} : SymbolTable).run before).scope name ∧
      c.symbols.Bound stored after op w movable ∧
      Expr.eval c variant = .ok
        { value := w, ok := true, references := [Text.lower stored], relocatable := movable } := by
  obtain ⟨w, movable, hbound⟩ := bound_run hop hok after
  rw [run_append] at hs
  change c.symbols = ((({} : SymbolTable).run before).perform op).2.run after at hs
  rw [← hs] at hbound
  refine ⟨w, movable, _, rfl, hbound, ?_⟩
  have hkeyed : c.symbols.Keyed := by
    rw [hs]
    exact ((({} : SymbolTable).run before).performs op |>.keyed (keyed_run_empty before)).run after
  have hname : Name.qualify c.position.scope name =
      Name.qualify (({} : SymbolTable).run before).scope name := by
    by_cases hdot : name.head? = some '.'
    · rw [hscope hdot]
    · rw [Name.qualify_of_global hdot, Name.qualify_of_global hdot]
  have hstands : Text.lower (Name.qualify c.position.scope variant) =
      Text.lower (Name.qualify (({} : SymbolTable).run before).scope name) := by
    rw [Name.lower_qualify hcase, hname]
  rw [Expr.eval_reference ((isReference_of_perform hop hok).of_lower hcase) hv hword,
    hbound.symbol hkeyed hstands]

/-- A local label of `Main` is referred to after another label has become the scope and after its
address has moved. -/
theorem eval_defined_sample :
    Expr.eval
      ⟨({} : SymbolTable).run [.label "Main".toList 4 0, .label ".Loop".toList 6 2,
        .equate "loop".toList 1, .label "next".toList 9 5, .shift 0 3 (-1)], {},
        { scope := some "Main".toList }, fun _ => .ok none⟩ ".lOOP".toList =
      .ok { value := 5, ok := true, references := ["main_loop".toList], relocatable := true } := by
  have hcase : Text.lower ".lOOP".toList = Text.lower ".Loop".toList := by decide
  have h := eval_defined [.label "Main".toList 4 0]
    [.equate "loop".toList 1, .label "next".toList 9 5, .shift 0 3 (-1)]
    (.label ".Loop".toList 6 2)
    (c := ⟨({} : SymbolTable).run [.label "Main".toList 4 0, .label ".Loop".toList 6 2,
      .equate "loop".toList 1, .label "next".toList 9 5, .shift 0 3 (-1)], {},
      { scope := some "Main".toList }, fun _ => .ok none⟩)
    rfl (by decide) rfl (fun _ => by decide) rfl hcase (by decide)
  obtain ⟨w, movable, stored, rfl, hbound, heval⟩ := h
  rw [heval]
  cases hbound with
  | label h hn ha =>
    rw [ha]
    decide

end SymbolTable

end Dcpu
