import Dcpu.Diagnostic
import Dcpu.Machine.Instruction

/-! Listing entries: what became of a line, at which address, and what the layout passes need to
bring it up to date. -/
namespace Dcpu

inductive EntryKind where
  | directive | basic | nonBasic
  deriving DecidableEq, Repr

/-- The name in reports. -/
def EntryKind.name : EntryKind → String
  | .directive => "Directive"
  | .basic => "BasicInstruction"
  | .nonBasic => "NonBasicInstruction"

/-- A data word and, if it has to be computed again in every pass, its expression. -/
structure Cell where
  value : Word
  deferred : Option Text := none
  deriving DecidableEq, Repr

def Cell.fixed (w : Word) : Cell := ⟨w, none⟩

/-- What an entry contributes to the program. Words stay as they are, while `data` has cells that are
computed again. -/
inductive Body where
  | words (ws : List Word)
  | data (cells : List Cell)
  | instruction (i : Instruction)
  | origin
  | align (target : Word)
  | form (long : Bool)
  deriving DecidableEq, Repr

namespace Body

def blank : Body := .words []

def ofCells (cells : List Cell) : Body :=
  if cells.any fun c => c.deferred.isSome then .data cells else .words (cells.map Cell.value)

/-- The words of a body at an address. Only the padding of an alignment depends on the address. -/
def output (address : Word) : Body → List Word
  | .words ws => ws
  | .data cells => cells.map Cell.value
  | .instruction i => i.encode
  | .align target =>
    if address ≤ target then List.replicate (target - address).toNat 0 else []
  | .origin | .form _ => []

/-- Whether a pass can change the words. -/
def isVariable : Body → Bool
  | .data _ | .instruction _ => true
  | _ => false

/-- The number of words at an address. -/
def length (address : Word) : Body → Nat
  | .align target => if address ≤ target then (target - address).toNat else 0
  | b => (b.output address).length

theorem length_output (address : Word) (b : Body) : (b.output address).length = b.length address := by
  cases b <;> simp only [length]
  rw [output]
  split <;> simp only [List.length_replicate, List.length_nil]

end Body

/-- Where an expression is evaluated: the address that `$` stands for, the number of the line for
anonymous labels, and the scope of local names. -/
structure Position where
  address : Word := 0
  root : Nat := 0
  scope : Option Text := none
  deriving DecidableEq, Repr

/-- What became of a line. The words of an entry are those of its body unless it has words of its
own, which a plugin may have given it. -/
structure Entry where
  code : Text
  file : Text
  line : Nat
  kind : EntryKind := .directive
  address : Word
  fault : Option Fault := none
  caution : Option Caution := none
  listed : Bool := true
  body : Body := .blank
  own : Option (List Word) := none
  root : Nat := 0
  scope : Option Text := none
  deriving DecidableEq, Repr

namespace Entry

def output (e : Entry) : List Word := e.own.getD (e.body.output e.address)

def length (e : Entry) : Nat :=
  match e.own with
  | some ws => ws.length
  | none => e.body.length e.address

theorem length_output (e : Entry) : e.output.length = e.length := by
  unfold output length
  split
  next ws h => rw [h, Option.getD_some]
  next h => rw [h, Option.getD_none, Body.length_output]

theorem output_of_own {e : Entry} (h : e.own = none) : e.output = e.body.output e.address := by
  rw [output, h, Option.getD_none]

theorem length_of_own {e : Entry} (h : e.own = none) : e.length = e.body.length e.address := by
  simp only [length, h]

/-- The number of words, as far as the address is concerned. -/
def size (e : Entry) : Word := UInt16.ofNat e.length

/-- The number of words that a pass counts on. For an instruction it is the length of its code,
whatever words stand there. -/
def room (e : Entry) : Nat :=
  match e.body with
  | .instruction i => i.encode.length
  | _ => e.length

theorem room_of_ne {e : Entry} (h : ∀ i, e.body ≠ .instruction i) : e.room = e.length := by
  unfold room
  split
  next i hb => exact absurd hb (h i)
  next => rfl

theorem room_of_own {e : Entry} (h : e.own = none) : e.room = e.length := by
  unfold room
  split
  next i hb =>
    rw [length_of_own h, hb]
    rfl
  next => rfl

def position (e : Entry) : Position := ⟨e.address, e.root, e.scope⟩

def hasDeferred (e : Entry) : Bool :=
  match e.body with
  | .data cells => cells.any fun c => c.deferred.isSome
  | _ => false

/-- Records a fault unless there is one already. -/
def addFault (e : Entry) (f : Fault) : Entry := { e with fault := e.fault.or (some f) }

/-- Records a caution unless there is one already. -/
def addCaution (e : Entry) (c : Caution) : Entry := { e with caution := e.caution.or (some c) }

end Entry

end Dcpu
