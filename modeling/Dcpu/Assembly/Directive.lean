import Dcpu.Assembly.Data
import Dcpu.Assembly.Draft

/-! Directives: their names and what each of them does to the draft of a program. -/
namespace Dcpu

inductive Directive where
  | ifTrue | ifDefined | ifUndefined | elseIf | elseAll | endBlock
  | equate | origin | align | reserve | pad | data
  | string (style : StringStyle)
  | includeText
  | includeBytes (packed : Bool)
  | template | endTemplate | echo | reference
  | list (on : Bool)
  | form (long : Bool)
  | region
  deriving DecidableEq, Repr

namespace Directive

def names : List (String × Directive) :=
  [("if", .ifTrue), ("ifdef", .ifDefined), ("ifndef", .ifUndefined), ("elseif", .elseIf),
    ("elif", .elseIf), ("else", .elseAll), ("end", .endBlock), ("endif", .endBlock),
    ("equ", .equate), ("equate", .equate), ("define", .equate), ("org", .origin),
    ("align", .align), ("reserve", .reserve), ("pad", .pad), ("fill", .pad), ("dat", .data),
    ("dw", .data), ("ascii", .string .plain), ("asciiz", .string .terminated),
    ("asciic", .string .terminated), ("asciip", .string .counted), ("include", .includeText),
    ("incbin", .includeBytes false), ("incpack", .includeBytes true), ("macro", .template),
    ("endmacro", .endTemplate), ("echo", .echo), ("ref", .reference), ("list", .list true),
    ("nolist", .list false), ("longform", .form true), ("shortform", .form false),
    ("region", .region), ("endregion", .region)]

/-- The directive of a name of either case. -/
def ofName? (name : Text) : Option Directive :=
  (names.find? fun n => n.1.toList == Text.lower name).map Prod.snd

/-- These count even where other lines do not. -/
def isConditional : Directive → Bool
  | .ifTrue | .ifDefined | .ifUndefined | .elseIf | .elseAll | .endBlock => true
  | _ => false

/-- Directives start with a dot or a hash sign. -/
def isLead (c : Char) : Bool := c == '.' || c == '#'

/-- The directive of a line, if it is a known one, and its arguments. -/
def parse (t : Text) : Option Directive × Text :=
  let (name, args) := Text.firstWord (t.drop 1)
  (ofName? name, args)

end Directive

/-- A single name, without anything after it. -/
def singleName (args : Text) : Except Fault Text :=
  match Text.firstWord args with
  | ([], _) => .error .insufficientParameters
  | (name, []) => .ok name
  | _ => .error .tooManyParameters

/-- The value of a condition. -/
def condition (v : Session) (s : SymbolTable) (e : Entry) (args : Text) :
    Except Abort (Except Fault Bool × SymbolTable) :=
  if args.isEmpty then .ok (.error .insufficientParameters, s)
  else do
    let (value, s) ← v.immediate s e.position args
    return (value.map (· != 0), s)

/-- The fault of something that was tried. -/
def faultOf {α : Type} : Except Fault α → Option Fault
  | .ok _ => none
  | .error f => some f

def holds : Except Fault Bool → Bool
  | .ok b => b
  | .error _ => false

namespace Draft

/-- Opens a block. A condition without a value opens one that does not count. -/
def enterBlock (d : Draft) (e : Entry) (condition : Except Fault Bool) : Draft :=
  { d with blocks := d.blocks.enter (holds condition) }.pushOutcome e (faultOf condition)

/-- Opens a block that asks whether a name is defined. -/
def enterIfDefined (d : Draft) (e : Entry) (args : Text) (wanted : Bool) : Draft :=
  if d.blocks.active then
    d.enterBlock e ((singleName args).map fun n => d.symbols.isDefined n == wanted)
  else d.enterBlock e (.ok false)

def enterIf (v : Session) (d : Draft) (e : Entry) (args : Text) : Except Abort Draft :=
  if d.blocks.active then do
    let (c, s) ← condition v d.symbols e args
    return { d with symbols := s }.enterBlock e c
  else .ok (d.enterBlock e (.ok false))

/-- Replaces the open blocks, or records why that cannot be done. -/
def setBlocks (d : Draft) (e : Entry) (blocks : Except Fault Conditions) : Draft :=
  match blocks with
  | .ok blocks => { d with blocks := blocks }.push e
  | .error f => d.pushFault e f

/-- The condition is evaluated only if the branch can count. -/
def elseIf (v : Session) (d : Draft) (e : Entry) (args : Text) : Except Abort Draft :=
  match d.blocks.wantsBranch with
  | .error f => .ok (d.pushFault e f)
  | .ok false => .ok (d.setBlocks e (d.blocks.branch false))
  | .ok true => do
    let (c, s) ← condition v d.symbols e args
    let d := { d with symbols := s }
    match d.blocks.branch (holds c) with
    | .ok blocks => return { d with blocks := blocks }.pushOutcome e (faultOf c)
    | .error f => return d.pushFault e f

/-- `.equ name value`; without a value it is one. -/
def equate (v : Session) (d : Draft) (e : Entry) (args : Text) : Except Abort Draft :=
  match Text.firstWord args with
  | ([], _) => .ok (d.pushFault e .insufficientParameters)
  | (name, expr) =>
    if d.symbols.isDefined name then .ok (d.pushFault e .duplicateName)
    else do
      let (value, s) ←
        if expr.isEmpty then Except.ok (Except.ok 1, d.symbols)
        else v.immediate d.symbols e.position expr
      match value with
      | .error f => return { d with symbols := s }.pushFault e f
      | .ok w =>
        let (outcome, s) := s.defineEquate name w
        return { d with symbols := s }.pushOutcome e (faultOf outcome)

/-- Goes on at another address. -/
def origin (v : Session) (d : Draft) (e : Entry) (args : Text) : Except Abort Draft :=
  if args.isEmpty then .ok (d.pushFault e .insufficientParameters)
  else do
    let (value, s) ← v.immediate d.symbols e.position args
    let d := { d with symbols := s }
    match value with
    | .ok w => return { d with address := w }.push { e with address := w, body := .origin }
    | .error f => return d.pushFault e f

/-- The one argument of a directive that takes a number. -/
def length (v : Session) (d : Draft) (e : Entry) (args : Text) :
    Except Abort (Except Fault Word × Draft) :=
  match Text.splitFree ',' args with
  | [one] =>
    if (Text.trim one).isEmpty then .ok (.error .insufficientParameters, d)
    else do
      let (value, s) ← v.immediate d.symbols e.position one
      return (value, { d with symbols := s })
  | _ => .ok (.error .tooManyParameters, d)

/-- Zeros up to an address, which must not lie behind. -/
def align (v : Session) (d : Draft) (e : Entry) (args : Text) : Except Abort Draft := do
  match ← d.length v e args with
  | (.ok target, d) =>
    let e := { e with body := .align target }
    return if target < d.address then d.pushFault e .alignToPast else d.push e
  | (.error f, d) => return d.pushFault e f

def reserve (v : Session) (d : Draft) (e : Entry) (args : Text) : Except Abort Draft := do
  match ← d.length v e args with
  | (.ok n, d) => return d.push { e with body := .words (List.replicate n.toNat 0) }
  | (.error f, d) => return d.pushFault e f

/-- A number of equal words. -/
def pad (v : Session) (d : Draft) (e : Entry) (args : Text) : Except Abort Draft :=
  match ((Text.splitFree ',' args).map Text.trim).filter fun t => !t.isEmpty with
  | [length, fill] => do
    let (n, s) ← v.immediate d.symbols e.position length
    match n with
    | .ok n =>
      let (r, s) ← v.eval s e.position fill
      let cells := List.replicate n.toNat (Cell.ofResult fill r)
      return { d with symbols := s }.push { e with body := .ofCells cells }
    | .error f => return { d with symbols := s }.pushFault e f
  | [] | [_] => .ok (d.pushFault e .insufficientParameters)
  | _ => .ok (d.pushFault e .tooManyParameters)

def data (v : Session) (d : Draft) (e : Entry) (args : Text) : Except Abort Draft :=
  if args.isEmpty then .ok (d.pushFault e .insufficientParameters)
  else do
    let run ← dataCells v d.symbols e.position (Datum.items args)
    let e := { e with body := .ofCells run.cells.toList }
    return { d with symbols := run.symbols }.pushOutcome e run.fault

def string (d : Draft) (style : StringStyle) (e : Entry) (args : Text) : Draft :=
  if args.isEmpty then d.pushFault e .insufficientParameters
  else
    let (ws, ok) := stringWords style (Datum.items args)
    d.pushOutcome { e with body := .words ws } (if ok then none else some .illegalExpression)

/-- The paths that a file argument can mean: `<file>` is looked for along the include path, other
names as they are and next to the including file. -/
def candidates (d : Draft) (settings : Settings) (arg : Text) : List Text :=
  let arg := Text.trim arg
  let angled : Option Text :=
    match arg with
    | '<' :: rest => Text.dropLast? '>' rest
    | _ => none
  match angled with
  | some name => settings.includePath.map (Path.join · name) ++ [name]
  | none =>
    let isQuote (c : Char) : Bool := c == '"' || c == '\''
    let name := ((arg.dropWhile isQuote).reverse.dropWhile isQuote).reverse
    let dir := d.feed.currentFile?.bind Path.parent?
    if name.isEmpty then [] else name :: (dir.map (Path.join · name)).toList

/-- The path and the contents of the file that an argument means. -/
def locate (v : Session) (d : Draft) (arg : Text) : Except Abort (Option (Text × Node)) := do
  match ← v.disk.firstFile? (d.candidates v.settings arg) with
  | none => return none
  | some path =>
    let n ← v.disk path
    return some (path, n)

/-- Goes on with the lines of another file. -/
def includeText (v : Session) (d : Draft) (e : Entry) (args : Text) : Except Abort Draft := do
  match ← d.locate v args with
  | none => return d.pushFault e .fileNotFound
  | some (path, n) =>
    match n.text with
    | .ok contents => return { d with feed := d.feed.pushFile path contents }.push e
    | .error _ => return d.pushFault e .fileNotFound

/-- The bytes of a file, one or two to a word. -/
def includeBytes (v : Session) (d : Draft) (packed : Bool) (e : Entry) (args : Text) :
    Except Abort Draft := do
  match ← d.locate v args with
  | some (_, .file bytes) =>
    let ws := if packed then Image.pack bytes else Image.spread bytes
    return d.push { e with body := .words ws }
  | _ => return d.pushFault e .fileNotFound

/-- A line that ends the body of a macro. -/
def endsTemplate (t : Text) : Bool :=
  let t := Text.lower t
  t == ".endmacro".toList || t == "#endmacro".toList || t == ['}']

/-- Reads the body of a macro from the lines of the same frame. A macro with a faulty header is
not defined, but its lines are taken all the same. -/
def template (d : Draft) (line : SourceLine) (e : Entry) (args : Text) : Draft :=
  let (lines, last, feed) := d.feed.takeBlock endsTemplate
  let d := { d with feed := feed }
  match last with
  | none => d.pushFault e .uncoupledStatement
  | some last =>
    let body := lines.filter fun l => !l.text.isEmpty && l.text != ['{']
    let header := Template.header? args
    let d := d.pushOutcome e (if header.isSome then none else some .invalidMacroDefinition)
    let d := (body ++ [last]).foldl (fun d l => d.push (d.note l.text line.file l.line)) d
    match header with
    | some (name, params) =>
      { d with templates := d.templates ++ [⟨name, params, body.map Feed.BlockLine.text⟩] }
    | none => d

/-- Shows a message made of strings and of values in hexadecimal. -/
def echoText (v : Session) (p : Position) (items : List Datum) (s : SymbolTable) :
    Except Abort (Text × Bool × SymbolTable) :=
  items.foldlM (fun (message, ok, s) item =>
    match item with
    | .string t => .ok (message ++ t, ok, s)
    | .expr e => do
      let (r, s) ← v.eval s p e
      if r.ok then return (message ++ '0' :: 'x' :: Numeral.hex r.value.toNat, ok, s)
      else return (message, false, s)
    | .bad => .ok (message, false, s)) ([], true, s)

def echo (v : Session) (d : Draft) (e : Entry) (args : Text) : Except Abort Draft :=
  if args.isEmpty then .ok (d.pushFault e .insufficientParameters)
  else do
    let (message, ok, s) ← echoText v e.position (Datum.items args) d.symbols
    let d := { d with symbols := s }
    let d := d.pushOutcome e (if ok then none else some .illegalExpression)
    return d.push (d.note message e.file e.line)

/-- Counts a name as referenced. -/
def reference (d : Draft) (e : Entry) (args : Text) : Draft :=
  match singleName args with
  | .ok name => { d with symbols := d.symbols.markReferenced [name] }.push e
  | .error f => d.pushFault e f

/-- Carries out a directive line. -/
def directive (v : Session) (d : Draft) (line : SourceLine) (text : Text) : Except Abort Draft :=
  let e := d.entry line text
  let (name, args) := Directive.parse text
  match name with
  | none => .ok (d.pushFault e .invalidDirective)
  | some .ifTrue => d.enterIf v e args
  | some .ifDefined => .ok (d.enterIfDefined e args true)
  | some .ifUndefined => .ok (d.enterIfDefined e args false)
  | some .elseIf => d.elseIf v e args
  | some .elseAll => .ok (d.setBlocks e (d.blocks.branch true))
  | some .endBlock => .ok (d.setBlocks e d.blocks.leave)
  | some .equate => d.equate v e args
  | some .origin => d.origin v e args
  | some .align => d.align v e args
  | some .reserve => d.reserve v e args
  | some .pad => d.pad v e args
  | some .data => d.data v e args
  | some (.string style) => .ok (d.string style e args)
  | some .includeText => d.includeText v e args
  | some (.includeBytes packed) => d.includeBytes v packed e args
  | some .template => .ok (d.template line e args)
  | some .endTemplate => .ok (d.pushFault e .uncoupledStatement)
  | some .echo => d.echo v e args
  | some .reference => .ok (d.reference e args)
  | some (.list on) => .ok ({ d with listed := on }.push { e with listed := on })
  | some (.form long) => .ok ({ d with longForm := long }.push { e with body := .form long })
  | some .region => .ok (d.push e)

end Draft

end Dcpu
