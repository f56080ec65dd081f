import Dcpu.Assembly.Directive

/-! Lines: an optional label, then a directive, a macro call or an instruction. -/
namespace Dcpu

/-- A label and the rest of its line. `code` is the label as it is written. -/
structure LabelPart where
  name : Text
  code : Text
  rest : Text
  deriving DecidableEq, Repr

/-- The label `:name` or `name:` at the start of a line. -/
def LabelPart.ofLine? (t : Text) : Option LabelPart :=
  match Text.cutAt ':' t with
  | none => none
  | some (before, after) =>
    match t with
    | ':' :: t =>
      let (name, rest) := Text.firstWord t
      some ⟨name, ':' :: name, rest⟩
    | _ => some ⟨Text.trim before, before ++ [':'], Text.trim after⟩

/-- Writes `name .equ value` as `.equ name value` and puts a dot before a bare `dat`. -/
def canonicalStatement (t : Text) : Text :=
  let (first, rest) := Text.firstWord t
  let (second, tail) := Text.firstWord rest
  if !first.head?.any Directive.isLead && Text.sameFolded second ".equ".toList then
    Text.trimEnd (".equ ".toList ++ first ++ ' ' :: tail)
  else if Text.sameFolded first "dat".toList then '.' :: t
  else t

/-- Tests only look at their operands. -/
def Match.isTest (m : Match) : Bool := "if".toList.isPrefixOf (Text.lower m.pattern.text)

/-- What is doubtful about the operands of a basic instruction. -/
def operandCaution (opcode a b : Match) : Option Caution :=
  if b.pattern.code = nextWordCode ∧ !opcode.isTest then some .assignToLiteral
  else if a.pattern.code = b.pattern.code ∧ a.pattern.code ≠ addressedCode then
    some .redundantStatement
  else none

/-- The opcode and the operands that a line matches. -/
structure Recognised where
  kind : EntryKind
  opcode : Match
  a : Option Match
  b : Option Match
  deriving DecidableEq, Repr

/-- Basic instructions are tried before non-basic ones. -/
def Grammar.recognise? (g : Grammar) (t : Text) : Option Recognised :=
  let value? (t : Option Text) : Option Match := t.bind (g.match? .value)
  match g.match? .opcode t with
  | some m => some ⟨.basic, m, value? m.captures.a, value? m.captures.b⟩
  | none => (g.match? .nonBasic t).map fun m => ⟨.nonBasic, m, value? m.captures.a, none⟩

/-- An operand with the value that its literal has now, and whether it has one. -/
def Operand.ofMatch (v : Session) (s : SymbolTable) (p : Position) (m : Match) :
    Except Abort (Operand × Bool × SymbolTable) :=
  match m.captures.literal with
  | none => .ok (⟨m.pattern.code, none⟩, true, s)
  | some t => do
    let (r, s) ← v.eval s p t
    return (⟨m.pattern.code, some ⟨t, r.value⟩⟩, r.ok, s)

def Operand.ofMatch? (v : Session) (s : SymbolTable) (p : Position) :
    Option Match → Except Abort (Option Operand × SymbolTable)
  | none => .ok (none, s)
  | some m => do
    let (o, _, s) ← Operand.ofMatch v s p m
    return (some o, s)

namespace Draft

/-- Binds the label at the start of a line to the current address; gives the rest of the line. -/
def takeLabel (d : Draft) (line : SourceLine) (t : Text) : Draft × Text :=
  match LabelPart.ofLine? t with
  | none => (d, t)
  | some label =>
    let e := d.entry line label.code
    if label.name = ['$'] then
      let s := d.symbols.defineAnonymous line.root d.address d.entries.size
      ({ d with symbols := s }.push e, label.rest)
    else
      let (outcome, s) := d.symbols.defineLabel label.name d.address d.entries.size
      ({ d with symbols := s }.pushOutcome e (faultOf outcome), label.rest)

/-- Goes on with the lines of a macro if the text calls one. -/
def expandCall? (d : Draft) (line : SourceLine) (t : Text) : Option Draft := do
  let (name, args) ← Template.call? t
  let m ← Template.find? d.templates name args
  let d := d.push (d.entry line t)
  return { d with feed := d.feed.pushCall (m.expand args) line.file line.line }

/-- The entry of an instruction whose operands are `a` and, if it is a basic one, `b`. -/
def encoded (v : Session) (d : Draft) (e : Entry) (opcode a : Match) (b : Option Match) :
    Except Abort Draft := do
  let (a, ok, s) ← Operand.ofMatch v d.symbols e.position a
  let (b, s) ← Operand.ofMatch? v s e.position b
  let i : Instruction := ⟨opcode.pattern.code, a, b, false⟩
  return { d with symbols := s }.push { e with body := .instruction (i.pack (ok && !d.longForm)) }

def instruction (v : Session) (d : Draft) (line : SourceLine) (t : Text) : Except Abort Draft :=
  let e := d.entry line t
  match v.grammar.recognise? t with
  | none => .ok (d.pushFault e .invalidOpcode)
  | some r =>
    let e := { e with kind := r.kind }
    match r.kind, r.a, r.b with
    | .basic, some a, some b =>
      d.encoded v { e with caution := operandCaution r.opcode a b } r.opcode a (some b)
    | .nonBasic, some a, _ => d.encoded v e r.opcode a none
    | _, _, _ => .ok (d.pushFault e .invalidParameter)

/-- What follows the label of a line. -/
def statement (v : Session) (d : Draft) (line : SourceLine) (t : Text) : Except Abort Draft :=
  if t.isEmpty then .ok d
  else
    let t := canonicalStatement t
    if t.head?.any Directive.isLead then d.directive v line t
    else
      match d.expandCall? line t with
      | some d => .ok d
      | none => d.instruction v line t

/-- A line where lines do not count: only conditional directives matter. -/
def skippedLine (v : Session) (d : Draft) (line : SourceLine) (t : Text) : Except Abort Draft :=
  if t.head?.any Directive.isLead && (Directive.parse t).1.any Directive.isConditional then
    d.directive v line t
  else .ok d

/-- An entry that a plugin made in place of a line. -/
def claimed (d : Draft) (plugin line : Text) (c : LineContext) (e : Entry) : Draft :=
  { d with events := d.events.push (.claimed plugin line c) }.push
    { e with address := d.address, listed := d.listed }

/-- Reads one line. -/
def line (v : Session) (d : Draft) (line : SourceLine) : Except Abort Draft :=
  let t := Text.clean line.text
  if t.isEmpty then .ok d
  else if !d.blocks.active then d.skippedLine v line t
  else
    let c : LineContext := ⟨line.file, line.line, d.address⟩
    match v.hooks.claim? c t with
    | some (plugin, e) => .ok (d.claimed plugin t c e)
    | none =>
      let (d, rest) := d.takeLabel line t
      d.statement v line rest

/-- Reads all lines, at most `steps` of them. -/
def readAll (v : Session) : Nat → Draft → Except Abort Draft
  | 0, _ => .error .outOfSteps
  | steps + 1, d =>
    match d.feed.next? with
    | none => .ok d
    | some (l, feed) =>
      match { d with feed := feed }.line v l with
      | .ok d => readAll v steps d
      | .error a => .error a

end Draft

end Dcpu
