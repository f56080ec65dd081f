import Dcpu.Text.Basic

/-! The options of the command. -/
namespace Dcpu

inductive ListingFormat where
  | text | json
  deriving DecidableEq, Repr

structure Options where
  input : Option Text := none
  target : Option Text := none
  output : Option Text := none
  listing : Option Text := none
  littleEndian : Bool := false
  longLiterals : Bool := false
  equates : List (Text × Text) := []
  includes : List Text := []
  pipe : Option Text := none
  workingDirectory : Option Text := none
  quiet : Bool := false
  verbose : Bool := false
  format : ListingFormat := .text
  config : Option Text := none
  deriving DecidableEq, Repr

/-- What an option on the command line can be. -/
inductive Switch where
  | littleEndian | longLiterals | quiet | verbose
  | output | listing | equate | includeDir | pipe | workingDirectory | format | config
  | help | version
  deriving DecidableEq, Repr

/-- Why there are no options to go on with. -/
inductive Refusal where
  | usage | help | version
  deriving DecidableEq, Repr

namespace Switch

def names : List (String × Switch) :=
  [("little-endian", .littleEndian), ("long-literals", .longLiterals), ("quiet", .quiet),
    ("verbose", .verbose), ("output", .output), ("listing", .listing), ("equate", .equate),
    ("include", .includeDir), ("pipe", .pipe), ("working-directory", .workingDirectory),
    ("format", .format), ("config", .config), ("help", .help), ("version", .version)]

def ofName? (name : Text) : Option Switch :=
  (names.find? fun n => n.1.toList == name).map Prod.snd

def ofLetter? : Char → Option Switch
  | 'q' => some .quiet
  | 'v' => some .verbose
  | 'o' => some .output
  | 'l' => some .listing
  | 'e' => some .equate
  | 'i' => some .includeDir
  | 'p' => some .pipe
  | 'w' => some .workingDirectory
  | 'h' => some .help
  | 'V' => some .version
  | _ => none

/-- The number of values that follow. -/
def arity : Switch → Nat
  | .littleEndian | .longLiterals | .quiet | .verbose | .help | .version => 0
  | .equate => 2
  | _ => 1

def isRepeatable : Switch → Bool
  | .equate | .includeDir => true
  | _ => false

def format? (t : Text) : Option ListingFormat :=
  if t = "text".toList then some .text else if t = "json".toList then some .json else none

/-- Sets what an option with its values means. The directories and the settings file that are read
need a name. -/
def set (s : Switch) (o : Options) (values : List Text) : Except Refusal Options :=
  match s, values with
  | .littleEndian, [] => .ok { o with littleEndian := true }
  | .longLiterals, [] => .ok { o with longLiterals := true }
  | .quiet, [] => .ok { o with quiet := true }
  | .verbose, [] => .ok { o with verbose := true }
  | .help, [] => .error .help
  | .version, [] => .error .version
  | .output, [t] => .ok { o with output := some t }
  | .listing, [t] => .ok { o with listing := some t }
  | .includeDir, [t@(_ :: _)] => .ok { o with includes := o.includes ++ [t] }
  | .pipe, [t] => .ok { o with pipe := some t }
  | .workingDirectory, [t@(_ :: _)] => .ok { o with workingDirectory := some t }
  | .config, [t@(_ :: _)] => .ok { o with config := some t }
  | .equate, [n, t] => .ok { o with equates := o.equates ++ [(n, t)] }
  | .format, [t] =>
    match format? t with
    | some f => .ok { o with format := f }
    | none => .error .usage
  | _, _ => .error .usage

end Switch

namespace Options

/-- The arguments read so far: the options, those that were given, one that waits for values, and
whether only positional arguments can follow. -/
structure Reading where
  options : Options := {}
  given : List Switch := []
  waiting : Option (Switch × List Text) := none
  positionalOnly : Bool := false
  deriving DecidableEq, Repr

namespace Reading

def positional (r : Reading) (t : Text) : Except Refusal Reading :=
  let o := r.options
  if o.input.isNone then .ok { r with options := { o with input := some t } }
  else if o.target.isNone then .ok { r with options := { o with target := some t } }
  else .error .usage

/-- Takes note of an option. Most of them must not be repeated. -/
def give (r : Reading) (s : Switch) : Except Refusal Reading :=
  if r.given.contains s && !s.isRepeatable then .error .usage
  else .ok { r with given := s :: r.given }

/-- An option with its values. -/
def complete (r : Reading) (s : Switch) (values : List Text) : Except Refusal Reading :=
  (s.set r.options values).map fun o => { r with options := o, waiting := none }

/-- An option whose values, if it has any, are the next arguments. -/
def start (r : Reading) (s : Switch) : Except Refusal Reading := do
  let r ← r.give s
  if s.arity = 0 then r.complete s [] else return { r with waiting := some (s, []) }

/-- `--name` or `--name=value`. -/
def long (r : Reading) (t : Text) : Except Refusal Reading :=
  let (name, rest) := t.span (· != '=')
  match Switch.ofName? name, rest with
  | none, _ => .error .usage
  | some s, [] => r.start s
  | some s, _ :: value => do
    let r ← r.give s
    if s.arity = 0 then .error .usage else r.complete s [value]

/-- Letters after a dash. What follows the letter of an option with values is its value. -/
def letters (r : Reading) : Text → Except Refusal Reading
  | [] => .ok r
  | c :: t =>
    match Switch.ofLetter? c with
    | none => .error .usage
    | some s =>
      if s.arity = 0 then do
        let r ← r.start s
        r.letters t
      else if t.isEmpty then r.start s
      else do
        let r ← r.give s
        r.complete s [if t.head? = some '=' then t.drop 1 else t]

/-- A value of the option that waits, or a positional argument. -/
def plain (r : Reading) (t : Text) : Except Refusal Reading :=
  match r.waiting with
  | none => r.positional t
  | some (s, values) =>
    let values := values ++ [t]
    if values.length < s.arity then .ok { r with waiting := some (s, values) }
    else r.complete s values

/-- An option cannot come where a value has to. -/
def argument (r : Reading) (t : Text) : Except Refusal Reading :=
  if r.positionalOnly then r.positional t
  else
    match t with
    | '-' :: c :: rest =>
      if r.waiting.isSome then .error .usage
      else if c = '-' then
        if rest.isEmpty then .ok { r with positionalOnly := true } else r.long rest
      else r.letters (c :: rest)
    | _ => r.plain t

def finish (r : Reading) : Except Refusal Options :=
  if r.waiting.isSome then .error .usage else .ok r.options

end Reading

/-- Reads the arguments of the command. -/
def parse (args : List Text) : Except Refusal Options := do
  let r ← args.foldlM Reading.argument {}
  r.finish

end Options

end Dcpu
