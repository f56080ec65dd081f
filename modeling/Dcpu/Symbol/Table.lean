import Dcpu.Diagnostic
import Dcpu.Machine.Word
import Dcpu.Symbol.Name

/-! The symbol table: equates, labels and anonymous labels, the names that were looked up, and the
scope of local names. Letters of either case are the same in a name. -/
namespace Dcpu

/-- A named address. `position` is the index of the listing entry that bound it. -/
structure Label where
  name : Text
  address : Word
  position : Nat
  deriving DecidableEq, Repr

namespace Label

def moveBy (delta : Int) (l : Label) : Label := { l with address := l.address.move delta }

end Label

/-- A label without a name, bound on the line with the number `root`. -/
structure AnonymousLabel where
  root : Nat
  address : Word
  position : Nat
  deriving DecidableEq, Repr

namespace AnonymousLabel

def moveBy (delta : Int) (l : AnonymousLabel) : AnonymousLabel :=
  { l with address := l.address.move delta }

/-- Keeps the roots descending; a label with the same root gives way. -/
def insert (l : AnonymousLabel) : List AnonymousLabel → List AnonymousLabel
  | [] => [l]
  | m :: ms =>
    if m.root < l.root then l :: m :: ms
    else if l.root = m.root then l :: ms
    else m :: insert l ms

end AnonymousLabel

/-- Equates and labels are keyed by their names in lower case, the newest first. Anonymous labels
have the last line first. -/
structure SymbolTable where
  equates : List (Text × Word) := []
  labels : List (Text × Label) := []
  anonymous : List AnonymousLabel := []
  referenced : NameSet := []
  scope : Option Text := none
  deriving DecidableEq, Repr

namespace SymbolTable

def equate? (s : SymbolTable) (name : Text) : Option Word := s.equates.lookup (Text.lower name)

def label? (s : SymbolTable) (name : Text) : Option Label := s.labels.lookup (Text.lower name)

def isDefined (s : SymbolTable) (name : Text) : Bool :=
  (s.equate? name).isSome || (s.label? name).isSome

/-- Binds a name to a value. Gives the outcome and the table that is left. -/
def defineEquate (s : SymbolTable) (name : Text) (value : Word) :
    Except Fault Unit × SymbolTable :=
  if !Name.isValid name then (.error .invalidLabel, s)
  else if s.isDefined name then (.error .duplicateName, s)
  else (.ok (), { s with equates := (Text.lower name, value) :: s.equates })

/-- The name under which a label is stored, if its spelling allows it. -/
def storedName? (s : SymbolTable) : Text → Option Text
  | '.' :: t => if Name.isValid t then some (Name.qualify s.scope ('.' :: t)) else none
  | t => if Name.isValid t then some t else none

/-- Binds a global name, which becomes the scope, or a local name of the current scope. Gives the
name that was stored or why there is none, and the table that is left. -/
def defineLabel (s : SymbolTable) (name : Text) (address : Word) (position : Nat) :
    Except Fault Text × SymbolTable :=
  match s.storedName? name with
  | none => (.error .invalidLabel, s)
  | some stored =>
    if s.isDefined stored then (.error .duplicateName, s)
    else (.ok stored,
      { s with
        labels := (Text.lower stored, ⟨stored, address, position⟩) :: s.labels
        scope := if name.head? = some '.' then s.scope else some stored })

def defineAnonymous (s : SymbolTable) (root : Nat) (address : Word) (position : Nat) :
    SymbolTable :=
  { s with anonymous := AnonymousLabel.insert ⟨root, address, position⟩ s.anonymous }

/-- The `n`-th anonymous label after the line, counting from one. -/
def forward? (s : SymbolTable) (root n : Nat) : Option Word :=
  let later := s.anonymous.findIdx fun l => l.root ≤ root
  if n = 0 || later < n then none else s.anonymous[later - n]?.map AnonymousLabel.address

/-- The `n`-th anonymous label at or before the line, going back and counting from one. -/
def backward? (s : SymbolTable) (root n : Nat) : Option Word :=
  if n = 0 then none
  else (s.anonymous.dropWhile fun l => root < l.root)[n - 1]?.map AnonymousLabel.address

def markReferenced (s : SymbolTable) (names : List Text) : SymbolTable :=
  { s with referenced := NameSet.union s.referenced (names.map Text.lower) }

def isReferenced (s : SymbolTable) (name : Text) : Bool := s.referenced.contains (Text.lower name)

/-- Moves the labels whose position lies strictly between `after` and `before`. -/
def shift (s : SymbolTable) (after before : Nat) (delta : Int) : SymbolTable :=
  let moves (position : Nat) : Bool := after < position && position < before
  { s with
    labels := s.labels.map fun (key, l) => (key, if moves l.position then l.moveBy delta else l)
    anonymous := s.anonymous.map fun l => if moves l.position then l.moveBy delta else l }

section Definitions

variable {s t : SymbolTable} {name stored : Text} {address value : Word} {position : Nat}

/-- An equate can be defined if its name is valid and free. -/
theorem defineEquate_eq_ok :
    s.defineEquate name value = (.ok (), t) ↔
      Name.isValid name = true ∧ s.isDefined name = false ∧
        t = { s with equates := (Text.lower name, value) :: s.equates } := by
  unfold defineEquate
  cases Name.isValid name <;> cases s.isDefined name <;> simp [eq_comm]

/-- An equate that cannot be defined leaves no trace. -/
theorem eq_of_defineEquate_error {f : Fault} (h : s.defineEquate name value = (.error f, t)) :
    t = s := by
  unfold defineEquate at h
  split at h
  · exact (Prod.mk.inj h).2.symm
  · split at h
    · exact (Prod.mk.inj h).2.symm
    · cases h

/-- A label can be defined if it has a name to be stored under, and that is free. -/
theorem defineLabel_eq_ok :
    s.defineLabel name address position = (.ok stored, t) ↔
      s.storedName? name = some stored ∧ s.isDefined stored = false ∧
      t = { s with
        labels := (Text.lower stored, ⟨stored, address, position⟩) :: s.labels
        scope := if name.head? = some '.' then s.scope else some stored } := by
  unfold defineLabel
  cases s.storedName? name with
  | none => simp
  | some u =>
    dsimp only
    constructor
    · intro h
      split at h
      next => cases h
      next hd =>
        obtain ⟨ho, rfl⟩ := Prod.mk.inj h
        obtain rfl := Except.ok.inj ho
        exact ⟨rfl, by simpa using hd, rfl⟩
    · rintro ⟨h, hd, rfl⟩
      obtain rfl := Option.some.inj h
      rw [if_neg (by simp [hd])]

theorem eq_of_defineLabel_error {f : Fault}
    (h : s.defineLabel name address position = (.error f, t)) : t = s := by
  unfold defineLabel at h
  split at h
  · exact (Prod.mk.inj h).2.symm
  · split at h
    · exact (Prod.mk.inj h).2.symm
    · cases h

end Definitions

/-- The labels in the order of their lower-case names. -/
def sortedLabels (s : SymbolTable) : List Label :=
  (s.labels.mergeSort fun l m => !(m.1 < l.1)).map Prod.snd

/-- The equates in the order of their names. -/
def sortedEquates (s : SymbolTable) : List (Text × Word) :=
  s.equates.mergeSort fun e f => !(f.1 < e.1)

/-- The anonymous labels in the order of their lines. -/
def sortedAnonymous (s : SymbolTable) : List AnonymousLabel := s.anonymous.reverse

end SymbolTable

end Dcpu
