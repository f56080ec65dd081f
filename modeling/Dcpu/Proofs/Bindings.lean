import Dcpu.Proofs.Equates
import Dcpu.Proofs.Names
import Mathlib.Data.List.Nodup

/-! The names of a symbol table. A definition binds a name that is free and leaves the table alone if
it fails. Whatever is done with a table, each name is bound at most once, as an equate or as a label,
and what it is bound to changes only where labels are moved. -/
namespace Dcpu

namespace SymbolTable

/-- What can be done with a table. -/
inductive Operation where
  | equate (name : Text) (value : Word)
  | label (name : Text) (address : Word) (position : Nat)
  | anonymous (root : Nat) (address : Word) (position : Nat)
  | mark (names : List Text)
  | shift (after before : Nat) (delta : Int)
  deriving DecidableEq, Repr

namespace Operation

/-- How far an operation moves a label. -/
def movement (position : Nat) : Operation → Int
  | .shift after before delta => if after < position ∧ position < before then delta else 0
  | _ => 0

/-- The global label that an operation is to define. -/
def global? : Operation → Option Text
  | .label name _ _ => if name.head? = some '.' then none else some name
  | _ => none

end Operation

/-- Why an operation fails, if it does, and the table that it leaves. -/
def perform (s : SymbolTable) : Operation → Option Fault × SymbolTable
  | .equate name value =>
    let (outcome, t) := s.defineEquate name value
    (faultOf outcome, t)
  | .label name address position =>
    let (outcome, t) := s.defineLabel name address position
    (faultOf outcome, t)
  | .anonymous root address position => (none, s.defineAnonymous root address position)
  | .mark names => (none, s.markReferenced names)
  | .shift after before delta => (none, s.shift after before delta)

/-- The table after some operations. -/
def run (s : SymbolTable) : List Operation → SymbolTable
  | [] => s
  | op :: ops => (s.perform op).2.run ops

/-- How far some operations move a label. -/
def movement (position : Nat) : List Operation → Int
  | [] => 0
  | op :: ops => op.movement position + movement position ops

/-- The global labels that some operations define, in their order. -/
def globals (s : SymbolTable) : List Operation → List Text
  | [] => []
  | op :: ops =>
    (if (s.perform op).1 = none then op.global?.toList else []) ++ (s.perform op).2.globals ops

/-- The names that are bound. -/
def keys (s : SymbolTable) : List Text := s.equates.map Prod.fst ++ s.labels.map Prod.fst

/-- Names are bound once and kept in lower case. -/
structure Keyed (s : SymbolTable) : Prop where
  nodup : s.keys.Nodup
  lower : ∀ key ∈ s.keys, Text.lower key = key
  labels : ∀ row ∈ s.labels, row.1 = Text.lower row.2.name

/-- What an operation does to a table. One that fails leaves it as it was. -/
inductive Performs (s : SymbolTable) : Operation → Option Fault → SymbolTable → Prop where
  | equate {name : Text} {value : Word} {t : SymbolTable}
      (h : s.defineEquate name value = (.ok (), t)) : Performs s (.equate name value) none t
  | label {name stored : Text} {address : Word} {position : Nat} {t : SymbolTable}
      (h : s.defineLabel name address position = (.ok stored, t)) :
      Performs s (.label name address position) none t
  | failed {op : Operation} {f : Fault} (h : (s.perform op).1 = some f) : Performs s op (some f) s
  | anonymous (root : Nat) (address : Word) (position : Nat) :
      Performs s (.anonymous root address position) none (s.defineAnonymous root address position)
  | mark (names : List Text) : Performs s (.mark names) none (s.markReferenced names)
  | shift (after before : Nat) (delta : Int) :
      Performs s (.shift after before delta) none (s.shift after before delta)

theorem performs (s : SymbolTable) (op : Operation) :
    s.Performs op (s.perform op).1 (s.perform op).2 := by
  cases op with
  | equate name value =>
    rcases h : s.defineEquate name value with ⟨f | u, t⟩
    · have hp : s.perform (.equate name value) = (some f, t) := by simp only [perform, h, faultOf]
      obtain rfl := eq_of_defineEquate_error h
      rw [hp]
      exact .failed (congrArg Prod.fst hp)
    · have hp : s.perform (.equate name value) = (none, t) := by simp only [perform, h, faultOf]
      rw [hp]
      exact .equate h
  | label name address position =>
    rcases h : s.defineLabel name address position with ⟨f | stored, t⟩
    · have hp : s.perform (.label name address position) = (some f, t) := by
        simp only [perform, h, faultOf]
      obtain rfl := eq_of_defineLabel_error h
      rw [hp]
      exact .failed (congrArg Prod.fst hp)
    · have hp : s.perform (.label name address position) = (none, t) := by
        simp only [perform, h, faultOf]
      rw [hp]
      exact .label h
  | anonymous root address position => exact .anonymous root address position
  | mark names => exact .mark names
  | shift after before delta => exact .shift after before delta

section Keys

variable {s t : SymbolTable} {name : Text}

theorem not_mem_keys (h : s.isDefined name = false) : Text.lower name ∉ s.keys := by
  obtain ⟨he, hl⟩ := equates_ne_of_isDefined h
  intro hm
  rcases List.mem_append.mp hm with hm | hm
  · obtain ⟨e, hmem, hkey⟩ := List.mem_map.mp hm
    exact he e hmem hkey
  · obtain ⟨l, hmem, hkey⟩ := List.mem_map.mp hm
    exact hl l hmem hkey

/-- No name is of both kinds. -/
theorem Keyed.disjoint (h : s.Keyed) {value : Word} {l : Label} (he : s.equate? name = some value) :
    s.label? name ≠ some l := by
  intro hl
  have hne := (List.nodup_append.mp h.nodup).2.2
  exact hne _ (List.mem_map_of_mem (mem_of_lookup he)) _ (List.mem_map_of_mem (mem_of_lookup hl)) rfl

theorem keys_shiftBy (s : SymbolTable) (f : Nat → Int) : (s.shiftBy f).keys = s.keys := by
  rw [keys, shiftBy, List.map_map]
  rfl

/-- A name that is bound cannot be bound again, however its letters are written. -/
theorem defineEquate_of_isDefined (h : s.isDefined name = true) {other : Text}
    (ho : Text.lower other = Text.lower name) (value : Word) :
    ∃ f, (s.defineEquate other value).1 = .error f := by
  rcases hd : s.defineEquate other value with ⟨f | u, t⟩
  · exact ⟨f, rfl⟩
  · obtain ⟨-, hfree, -⟩ := defineEquate_eq_ok.mp hd
    exact absurd ho.symm (beq_eq_false_iff_ne.mp (lower_ne_of_isDefined hfree h))

theorem eq_qualify_of_storedName? {stored : Text} (h : s.storedName? name = some stored) :
    stored = Name.qualify s.scope name := by
  unfold storedName? at h
  split at h
  · exact (Option.some.inj (Option.ite_none_right_eq_some.mp h).2).symm
  next hdot =>
    obtain rfl := Option.some.inj (Option.ite_none_right_eq_some.mp h).2
    unfold Name.qualify
    split
    next t => exact absurd rfl (hdot t)
    next => rfl

theorem defineLabel_of_isDefined (h : s.isDefined name = true) {other : Text}
    (ho : Text.lower (Name.qualify s.scope other) = Text.lower name) (address : Word)
    (position : Nat) : ∃ f, (s.defineLabel other address position).1 = .error f := by
  rcases hd : s.defineLabel other address position with ⟨f | stored, t⟩
  · exact ⟨f, rfl⟩
  · obtain ⟨hs, hfree, -⟩ := defineLabel_eq_ok.mp hd
    rw [eq_qualify_of_storedName? hs] at hfree
    exact absurd ho.symm (beq_eq_false_iff_ne.mp (lower_ne_of_isDefined hfree h))

end Keys

namespace Performs

variable {s t : SymbolTable} {op : Operation} {f : Option Fault} {name : Text}

theorem eq_of_fails (h : s.Performs op f t) (hf : f ≠ none) : t = s := by
  cases h with
  | failed => rfl
  | _ => exact absurd rfl hf

theorem keyed (h : s.Performs op f t) (hs : s.Keyed) : t.Keyed := by
  cases h with
  | equate h =>
    obtain ⟨-, hd, rfl⟩ := defineEquate_eq_ok.mp h
    constructor
    · exact List.nodup_cons.mpr ⟨not_mem_keys hd, hs.nodup⟩
    · exact List.forall_mem_cons.mpr ⟨Text.lower_lower _, hs.lower⟩
    · exact hs.labels
  | label h =>
    obtain ⟨-, hd, rfl⟩ := defineLabel_eq_ok.mp h
    -- Its key stands between those of the equates and those of the other labels.
    constructor
    · exact List.nodup_middle.mpr (List.nodup_cons.mpr ⟨not_mem_keys hd, hs.nodup⟩)
    · intro key hkey
      rcases List.mem_cons.mp (List.perm_middle.mem_iff.mp hkey) with rfl | hkey
      · exact Text.lower_lower _
      · exact hs.lower key hkey
    · exact List.forall_mem_cons.mpr ⟨rfl, hs.labels⟩
  | failed => exact hs
  | anonymous => exact ⟨hs.nodup, hs.lower, hs.labels⟩
  | mark => exact ⟨hs.nodup, hs.lower, hs.labels⟩
  | shift =>
    rw [shift_eq_shiftBy]
    constructor
    · rw [keys_shiftBy]
      exact hs.nodup
    · rw [keys_shiftBy]
      exact hs.lower
    · intro row hrow
      obtain ⟨row, hr, rfl⟩ := List.mem_map.mp hrow
      exact hs.labels row hr

theorem equate? (h : s.Performs op f t) {value : Word} (hs : s.equate? name = some value) :
    t.equate? name = some value := by
  cases h with
  | equate h => exact (Grows.of_defineEquate h).equates name value hs
  | label h => exact (Grows.of_defineLabel h).equates name value hs
  | _ => exact hs

theorem label? (h : s.Performs op f t) {l : Label} (hs : s.label? name = some l) :
    t.label? name = some (l.moveBy (op.movement l.position)) := by
  have hstill : s.label? name = some (l.moveBy 0) := by
    rw [hs, Label.moveBy, Word.move_zero]
  cases h with
  | label h =>
    obtain ⟨-, hd, rfl⟩ := defineLabel_eq_ok.mp h
    -- The new label has another name, which was free.
    rw [SymbolTable.label?, List.lookup_cons,
      lower_ne_of_isDefined hd (by simp [isDefined, hs])]
    exact hstill
  | equate h =>
    obtain ⟨-, -, rfl⟩ := defineEquate_eq_ok.mp h
    exact hstill
  | shift after before delta =>
    rw [shift_eq_shiftBy, label?_shiftBy, hs]
    rfl
  | failed h =>
    cases op with
    | shift => cases h
    | _ => exact hstill
  | _ => exact hstill

/-- Only a global label that is defined changes the scope. -/
theorem scope (h : s.Performs op f t) :
    t.scope = (if f = none then op.global? else none).or s.scope := by
  cases h with
  | equate h =>
    obtain ⟨-, -, rfl⟩ := defineEquate_eq_ok.mp h
    rfl
  | @label name stored _ _ _ h =>
    obtain ⟨hs, -, rfl⟩ := defineLabel_eq_ok.mp h
    by_cases hdot : name.head? = some '.'
    · simp [Operation.global?, hdot]
    · have hstored : stored = name := by
        rw [eq_qualify_of_storedName? hs, Name.qualify_of_global hdot]
      simp [Operation.global?, hdot, hstored]
  | _ => rfl

/-- An equate is defined exactly if its name is valid and free, and then it has its value. -/
theorem equate_ok {value : Word} (h : s.Performs (.equate name value) f t) :
    (f = none ↔ Name.isValid name = true ∧ s.isDefined name = false) ∧
      (f = none → t.equate? name = some value) := by
  cases h with
  | equate h =>
    obtain ⟨hvalid, hfree, rfl⟩ := defineEquate_eq_ok.mp h
    exact ⟨⟨fun _ => ⟨hvalid, hfree⟩, fun _ => rfl⟩, fun _ => List.lookup_cons_self⟩
  | failed h =>
    refine ⟨⟨nofun, fun ⟨hvalid, hfree⟩ => ?_⟩, nofun⟩
    simp [perform, defineEquate_eq_ok.mpr ⟨hvalid, hfree, rfl⟩, faultOf] at h

/-- A label is defined exactly if the name that it is stored under is valid and free. -/
theorem label_ok {address : Word} {position : Nat}
    (h : s.Performs (.label name address position) f t) :
    (f = none ↔ ∃ stored, s.storedName? name = some stored ∧ s.isDefined stored = false) ∧
      (f = none → t.label? (Name.qualify s.scope name) =
        some ⟨Name.qualify s.scope name, address, position⟩) := by
  cases h with
  | label h =>
    obtain ⟨hstored, hfree, rfl⟩ := defineLabel_eq_ok.mp h
    rw [← eq_qualify_of_storedName? hstored]
    exact ⟨⟨fun _ => ⟨_, hstored, hfree⟩, fun _ => rfl⟩, fun _ => List.lookup_cons_self⟩
  | failed h =>
    refine ⟨⟨nofun, fun ⟨stored, hstored, hfree⟩ => ?_⟩, nofun⟩
    simp [perform, defineLabel_eq_ok.mpr ⟨hstored, hfree, rfl⟩, faultOf] at h

end Performs

section Run

variable {s : SymbolTable} {name : Text}

theorem Keyed.run (h : s.Keyed) (ops : List Operation) : (s.run ops).Keyed := by
  induction ops generalizing s with
  | nil => exact h
  | cons op ops ih => exact ih ((s.performs op).keyed h)

theorem equate?_run {value : Word} (h : s.equate? name = some value) (ops : List Operation) :
    (s.run ops).equate? name = some value := by
  induction ops generalizing s with
  | nil => exact h
  | cons op ops ih => exact ih ((s.performs op).equate? h)

theorem label?_run {l : Label} (h : s.label? name = some l) (ops : List Operation) :
    (s.run ops).label? name = some (l.moveBy (movement l.position ops)) := by
  induction ops generalizing s l with
  | nil => rw [run, h, movement, Label.moveBy, Word.move_zero]
  | cons op ops ih =>
    rw [run, ih ((s.performs op).label? h)]
    simp only [movement, Label.moveBy, Word.move_move]

theorem isDefined_run (h : s.isDefined name = true) (ops : List Operation) :
    (s.run ops).isDefined name = true := by
  rcases Bool.or_eq_true_iff.mp h with he | hl
  · obtain ⟨value, he⟩ := Option.isSome_iff_exists.mp he
    rw [isDefined, equate?_run he ops]
    rfl
  · obtain ⟨l, hl⟩ := Option.isSome_iff_exists.mp hl
    rw [isDefined, label?_run hl ops]
    exact Bool.or_true _

theorem scope_run (s : SymbolTable) (ops : List Operation) :
    (s.run ops).scope = (s.globals ops).getLast?.or s.scope := by
  induction ops generalizing s with
  | nil => rfl
  | cons op ops ih =>
    rw [run, ih, (s.performs op).scope, globals, List.getLast?_append, Option.or_assoc]
    congr 2
    split
    · cases op.global? <;> rfl
    · rfl

end Run

/-- What holds of a table from now on: a definition of a valid name that is free binds it, a name
that is bound keeps its kind, an equate its value and a label its place but for the shifts over its
position, other definitions of the name fail, and a definition that fails changes nothing. -/
structure BindsOnce (s : SymbolTable) : Prop where
  keyed : s.Keyed
  bindsEquate : ∀ name value,
    ((s.perform (.equate name value)).1 = none ↔
      Name.isValid name = true ∧ s.isDefined name = false) ∧
    ((s.perform (.equate name value)).1 = none →
      (s.perform (.equate name value)).2.equate? name = some value)
  bindsLabel : ∀ name address position,
    ((s.perform (.label name address position)).1 = none ↔
      ∃ stored, s.storedName? name = some stored ∧ s.isDefined stored = false) ∧
    ((s.perform (.label name address position)).1 = none →
      (s.perform (.label name address position)).2.label? (Name.qualify s.scope name) =
        some ⟨Name.qualify s.scope name, address, position⟩)
  equates : ∀ name value, s.equate? name = some value → ∀ ops,
    (s.run ops).equate? name = some value ∧ (s.run ops).label? name = none
  labels : ∀ name l, s.label? name = some l → ∀ ops,
    (s.run ops).label? name = some (l.moveBy (movement l.position ops)) ∧
      (s.run ops).equate? name = none
  again : ∀ name, s.isDefined name = true → ∀ ops other,
    (Text.lower other = Text.lower name →
      ∀ value, ∃ f, ((s.run ops).defineEquate other value).1 = .error f) ∧
    (Text.lower (Name.qualify (s.run ops).scope other) = Text.lower name →
      ∀ address position, ∃ f, ((s.run ops).defineLabel other address position).1 = .error f)
  failed : ∀ op f, (s.perform op).1 = some f → (s.perform op).2 = s

theorem Keyed.bindsOnce {s : SymbolTable} (h : s.Keyed) : s.BindsOnce where
  keyed := h
  bindsEquate name value := (s.performs (.equate name value)).equate_ok
  bindsLabel name address position := (s.performs (.label name address position)).label_ok
  equates name value he ops := by
    have hrun := equate?_run he ops
    exact ⟨hrun, Option.eq_none_iff_forall_ne_some.mpr fun _ => (h.run ops).disjoint hrun⟩
  labels name l hl ops := by
    have hrun := label?_run hl ops
    refine ⟨hrun, Option.eq_none_iff_forall_ne_some.mpr fun value he => ?_⟩
    exact (h.run ops).disjoint he hrun
  again name hd ops other := by
    have hrun := isDefined_run hd ops
    exact ⟨defineEquate_of_isDefined hrun, defineLabel_of_isDefined hrun⟩
  failed op f hf := by
    apply (s.performs op).eq_of_fails
    rw [hf]
    exact Option.some_ne_none f

/-- Whatever is done with an empty table, its names are bound once and for all, and the scope is the
last global label that was defined. -/
theorem run_bindsOnce (ops : List Operation) :
    (({} : SymbolTable).run ops).BindsOnce ∧
      (({} : SymbolTable).run ops).scope = (({} : SymbolTable).globals ops).getLast? := by
  have hempty : ({} : SymbolTable).Keyed := ⟨List.nodup_nil, by simp [keys], by simp⟩
  refine ⟨(hempty.run ops).bindsOnce, ?_⟩
  rw [scope_run]
  exact Option.or_none

/-- A local label of `Main` is bound, another spelling does not define it again, and it moves by the
one shift that covers it. -/
theorem run_bindsOnce_sample :
    (((({} : SymbolTable).run [.label "Main".toList 4 0]).perform
        (.label ".x".toList 6 2)).2.label? "Main_x".toList = some ⟨"Main_x".toList, 6, 2⟩) ∧
    (((({} : SymbolTable).run [.label "Main".toList 4 0, .label ".x".toList 6 2]).run
        [.equate "k".toList 1, .shift 0 3 (-1), .shift 2 9 5]).label? "MAIN_X".toList =
      some ⟨"Main_x".toList, 5, 2⟩) ∧
    (∃ f, ((({} : SymbolTable).run [.label "Main".toList 4 0, .label ".x".toList 6 2]).defineLabel
      ".X".toList 9 9).1 = .error f) ∧
    (({} : SymbolTable).run [.label "Main".toList 4 0, .label ".x".toList 6 2]).scope =
      some "Main".toList := by
  obtain ⟨h, hscope⟩ :=
    run_bindsOnce [.label "Main".toList 4 0, .label ".x".toList 6 2]
  have hmain := (run_bindsOnce [.label "Main".toList 4 0]).1.bindsLabel ".x".toList 6 2
  refine ⟨hmain.2 (by decide), (h.labels _ ⟨"Main_x".toList, 6, 2⟩ (by decide) _).1, ?_, ?_⟩
  · exact (h.again "main_x".toList (by decide) [] _).2 (by decide) 9 9
  · exact hscope.trans (by decide)

end SymbolTable

end Dcpu
