import Dcpu.Assembly.Job

/-! The layout of a program: passes over its entries that bring values and forms of literals up to
date and move what follows, until nothing changes. -/
namespace Dcpu

/-- A literal with its current value, and whether it has one; else it keeps the last one. -/
def Literal.refresh (v : Session) (s : SymbolTable) (p : Position) (l : Literal) :
    Except Abort (Literal × Bool × SymbolTable) := do
  let (r, s) ← v.eval s p l.text
  return (if r.ok then { l with value := r.value } else l, r.ok, s)

def Operand.refresh (v : Session) (s : SymbolTable) (p : Position) (o : Operand) :
    Except Abort (Operand × Bool × SymbolTable) :=
  match o.literal with
  | none => .ok (o, true, s)
  | some l => do
    let (l, ok, s) ← l.refresh v s p
    return ({ o with literal := some l }, ok, s)

/-- An instruction with current values. Only a literal that has a value is packed. -/
def Instruction.refresh (v : Session) (s : SymbolTable) (p : Position) (long : Bool)
    (i : Instruction) : Except Abort (Instruction × Bool × SymbolTable) := do
  let (a, okA, s) ← i.a.refresh v s p
  let allowed := okA && !long
  match i.b with
  | none => return (({ i with a := a } : Instruction).pack allowed, okA, s)
  | some b =>
    let (b, okB, s) ← b.refresh v s p
    return (({ i with a := a, b := some b } : Instruction).pack allowed, okA && okB, s)

/-- Cells that have been brought up to date, the words of the entry's own with their values, and
whether all of them had values. -/
structure CellRun where
  symbols : SymbolTable
  cells : Array Cell := #[]
  own : Option (List Word) := none
  ok : Bool := true

def CellRun.add (v : Session) (p : Position) (run : CellRun) (c : Cell) : Except Abort CellRun :=
  match c.deferred with
  | none => .ok { run with cells := run.cells.push c }
  | some e => do
    let (r, s) ← v.eval run.symbols p e
    let own := run.own.map fun ws => if r.ok then ws.set run.cells.size r.value else ws
    let c := if r.ok then { c with value := r.value } else c
    return ⟨s, run.cells.push c, own, run.ok && r.ok⟩

namespace Entry

/-- The form of literals that is in force from this entry on. -/
def longAfter (e : Entry) (long : Bool) : Bool :=
  match e.body with
  | .form long => long
  | _ => long

/-- The fault of an entry whose expressions do not all have values. -/
def checked (e : Entry) (ok : Bool) : Entry := if ok then e else e.addFault .illegalExpression

/-- An entry with current values. The words of an instruction are those of its code from then
on. -/
def refresh (v : Session) (s : SymbolTable) (long : Bool) (e : Entry) :
    Except Abort (Entry × SymbolTable) :=
  match e.body with
  | .data cells => do
    let run ← cells.foldlM (CellRun.add v e.position) { symbols := s, own := e.own }
    return ({ e with body := .data run.cells.toList, own := run.own }.checked run.ok, run.symbols)
  | .instruction i => do
    let (i, ok, s) ← i.refresh v s e.position long
    return ({ e with body := .instruction i, own := none }.checked ok, s)
  | _ => .ok (e, s)

/-- The address behind the last word, without wrapping. -/
def stop (e : Entry) : Int := e.address.toNat + e.length

def moveBy (e : Entry) (delta : Int) : Entry := { e with address := e.address.move delta }

/-- An alignment at another address is filled up anew and is past its target or not, whatever it was
before. -/
def realign (e : Entry) (target : Word) (delta : Int) : Entry :=
  let e := { e.moveBy delta with own := none }
  if e.address ≤ target then
    { e with fault := if e.fault = some .alignToPast then none else e.fault }
  else { e with fault := some .alignToPast }

end Entry

/-- Moves entries, the first of which has the given index, by `delta` words up to the next origin.
An alignment takes up what it can. Labels behind `start` move with their entries. -/
def shiftEntries (start index : Nat) (delta : Int) (s : SymbolTable) :
    List Entry → List Entry × SymbolTable
  | [] => ([], s.shift start index delta)
  | e :: es =>
    if delta = 0 then (e :: es, s)
    else
      match e.body with
      | .origin => (e :: es, s.shift start index delta)
      | .align target =>
        let moved := e.realign target delta
        let (es, s) :=
          shiftEntries index (index + 1) (moved.stop - e.stop) (s.shift start index delta) es
        (moved :: es, s)
      | _ =>
        let (es, s) := shiftEntries start (index + 1) delta s es
        (e.moveBy delta :: es, s)

/-- The entries and symbols in the course of a pass. -/
structure Layout where
  entries : Array Entry
  symbols : SymbolTable
  long : Bool := false
  changed : Bool := false

namespace Layout

/-- Puts an entry in the place of the one at `i` and moves what follows by the difference of the room
that they take. -/
def replace (l : Layout) (i : Nat) (old new : Entry) : Layout :=
  let delta : Int := new.room - old.room
  if delta = 0 then
    { l with
      entries := l.entries.setIfInBounds i new
      changed := l.changed || new.output != old.output }
  else
    let (tail, s) := shiftEntries i (i + 1) delta l.symbols (l.entries.toList.drop (i + 1))
    { l with
      entries := (l.entries.extract 0 i).push new ++ tail
      symbols := s
      changed := true }

/-- Brings the entry at `i` up to date. -/
def refreshAt (v : Session) (l : Layout) (i : Nat) : Except Abort Layout :=
  match l.entries[i]? with
  | none => .ok l
  | some e => do
    let long := e.longAfter l.long
    if e.body.isVariable then
      let (new, s) ← e.refresh v l.symbols long
      return { l with symbols := s, long := long }.replace i e new
    else return { l with long := long }

/-- Brings all entries up to date, one after the other. -/
def pass (v : Session) (l : Layout) : Except Abort Layout :=
  (List.range l.entries.size).foldlM (refreshAt v)
    { l with long := v.settings.longLiterals, changed := false }

/-- Passes until one changes nothing, but at most `left` more. Gives the layout, the number of passes
and whether the last one changed nothing. -/
def settle (v : Session) : Nat → Nat → Layout → Except Abort (Layout × Nat × Bool)
  | 0, done, l => .ok (l, done, false)
  | left + 1, done, l =>
    match l.pass v with
    | .error a => .error a
    | .ok l => if l.changed then settle v left (done + 1) l else .ok (l, done + 1, true)

end Layout

end Dcpu
