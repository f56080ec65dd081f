import Dcpu.Assembly.Layout
import Dcpu.Assembly.Line

/-! Assembling a source text: all lines are read, then the layout is settled. -/
namespace Dcpu

/-- What an assembly produced. Without a fixed point the output may be inaccurate. -/
structure Assembly where
  entries : List Entry
  symbols : SymbolTable
  passes : Nat
  fixedPoint : Bool
  events : List Event := []
  deriving Repr

namespace Assembly

/-- All words in the order of the program. Gaps before origins are not filled. -/
def words (a : Assembly) : List Word := a.entries.flatMap Entry.output

def faulty (a : Assembly) : List Entry := a.entries.filter fun e => e.fault.isSome

def doubtful (a : Assembly) : List Entry := a.entries.filter fun e => e.caution.isSome

def isClean (a : Assembly) : Bool := a.fixedPoint && a.faulty.isEmpty

/-- Why an assembly as a whole failed. -/
def failure? (a : Assembly) : Option Text :=
  if a.fixedPoint then none
  else some ("Suspected circular reference: no fixed point after ".toList ++
    Numeral.decimal a.passes ++ " passes, output may be inaccurate".toList)

/-- The first word of the first entry that has any, if the entry is not faulty. -/
def firstWord? (a : Assembly) : Option Word := do
  let e ← a.entries.find? fun e => !e.output.isEmpty
  if e.fault.isNone then e.output.head? else none

end Assembly

namespace Session

/-- The draft before the first line. -/
def start (v : Session) (file source : Text) : Draft where
  feed := .ofFile file source
  symbols := v.symbols
  longForm := v.settings.longLiterals

/-- Settles the layout of a draft. There is always at least one pass. -/
def finish (v : Session) (d : Draft) : Except Abort Assembly := do
  let first : Layout := { entries := d.entries, symbols := d.symbols }
  let (l, passes, fixed) ← first.settle v (max v.settings.maxPasses 1) 0
  let entries := l.entries.toList
  let total := entries.foldl (fun n e => n + e.size.toNat) 0
  let completed := v.hooks.plugins.map fun p => Event.completed p.name entries.length total
  return ⟨entries, l.symbols, passes, fixed, d.events.toList ++ completed⟩

def run (v : Session) (steps : Nat) (file source : Text) : Except Abort Assembly := do
  let d ← (v.start file source).readAll v steps
  v.finish d

end Session

namespace Job

/-- The name under which the text of an instruction in braces is assembled. -/
def literalFile : Text := ['{'] ++ "literal".toList ++ ['}']

/-- Assembles a source text. At most `budget` lines are read, and instructions in braces get one
less than that. -/
def assembleWithin : Nat → Job → Text → Text → Except Abort Assembly
  | 0, _, _, _ => .error .outOfSteps
  | budget + 1, job, file, source =>
    let plain : Job := { disk := job.disk, grammar := job.grammar }
    let literal (t : Text) : Except Abort (Option Word) :=
      (assembleWithin budget plain literalFile t).map Assembly.firstWord?
    ({ job with literal := literal } : Session).run (budget + 1) file source

/-- More lines than any program needs that ends. -/
def budget : Nat := 0x100000000

def assemble (job : Job) (file source : Text) : Except Abort Assembly :=
  job.assembleWithin budget file source

/-- The session in which expressions are evaluated outside of any line. -/
def session (job : Job) : Session :=
  let plain : Job := { disk := job.disk, grammar := job.grammar }
  { job with literal := fun t => (plain.assemble literalFile t).map Assembly.firstWord? }

/-- The value of an expression before the first line. -/
def evaluate (job : Job) (e : Text) : Except Abort Result :=
  Expr.eval ⟨job.symbols, job.hooks, {}, job.session.literal⟩ e

/-- Assembles a file. A file that cannot be read is the message in the result. -/
def assembleFile (job : Job) (path : Text) : Except Abort (Except Text Assembly) := do
  let n ← job.disk path
  match n.text with
  | .ok source => (job.assemble path source).map .ok
  | .error reason =>
    return .error ("Unable to read ".toList ++ path ++ ": ".toList ++ reason.toList)

end Job

end Dcpu
