import Dcpu.Command.Options
import Dcpu.Listing.Report
import Dcpu.Listing.Text

/-! The command: what it does with its options, as a list of effects. -/
namespace Dcpu.Command

/-- What the command finds around it. `includeList` are directories from the environment. -/
structure Environment where
  disk : Disk
  input : Text := []
  includeList : Option Text := none

/-- Something that happens outside. A line goes to the error output, bytes to the standard output;
a failure is the last effect. -/
inductive Effect where
  | complain (line : Text)
  | write (path : Text) (bytes : List UInt8)
  | print (bytes : List UInt8)
  | fail (message : Text)
  deriving DecidableEq, Repr

/-- Why the command stops before it assembles anything. -/
inductive Stop where
  | abort (a : Abort)
  | failure (message : Text)
  deriving DecidableEq, Repr

def failure {α : Type} (parts : List Text) : Except Stop α := .error (.failure parts.flatten)

/-- A step that can be aborted. -/
def lift {α : Type} (r : Except Abort α) : Except Stop α := r.mapError .abort

def node (env : Environment) (path : Text) : Except Stop Node := lift (env.disk path)

def fileSettings (o : Options) (env : Environment) : Except Stop Settings :=
  match o.config with
  | none => .ok {}
  | some path => do
    let n ← node env path
    match n.text with
    | .error _ => failure ["reading ".toList, path]
    | .ok t =>
      match Settings.parse? t with
      | some s => return s
      | none => failure ["parsing ".toList, path]

/-- The settings of the file, then the directories of the environment, then the options. -/
def settings (o : Options) (env : Environment) : Except Stop Settings := do
  let s ← fileSettings o env
  let s := (env.includeList.map s.addIncludes).getD s
  return { s with
    includePath := s.includePath ++ o.includes
    longLiterals := s.longLiterals || o.longLiterals }

/-- The source text and the name under which it is listed. -/
def source (o : Options) (env : Environment) : Except Stop (Text × Text) :=
  match o.pipe, o.input with
  | some t, _ => .ok ("[piped input]".toList, t)
  | none, none => failure ["no input file specified".toList]
  | none, some ['-'] => .ok ("[stdin]".toList, env.input)
  | none, some path => do
    let n ← node env path
    match n.text with
    | .ok t => return (path, t)
    | .error _ => failure ["file not found (".toList, path, ")".toList]

/-- Defines a name before the assembly. -/
def defineEquate (job : Job) (name value : Text) : Except Stop Job := do
  let r ← lift (job.evaluate value)
  match r.resolved? with
  | none =>
    failure ["--equate ".toList, name, ": illegal expression `".toList, value, "`".toList]
  | some w =>
    match job.symbols.defineEquate name w with
    | (.ok _, s) => return { job with symbols := s }
    | (.error f, _) => failure ["--equate ".toList, name, ": ".toList, f.message.toList]

/-- The job with files seen from another directory. -/
def enterDirectory (job : Job) (env : Environment) : Option Text → Except Stop Job
  | none => .ok job
  | some dir => do
    let n ← node env dir
    if n = .directory then return { job with disk := job.disk.within dir }
    else failure ["changing to ".toList, dir]

def assemble (o : Options) (env : Environment) : Except Stop Assembly := do
  let s ← settings o env
  let (file, text) ← source o env
  let job : Job := { disk := env.disk, settings := s }
  let job ← o.equates.foldlM (fun job (name, value) => defineEquate job name value) job
  let job ← enterDirectory job env o.workingDirectory
  lift (job.assemble file text)

/-- The input's name with another extension, in the current directory. -/
def defaultTarget (o : Options) : Text :=
  let input := if o.pipe.isSome then none else o.input.filter (· ≠ ['-'])
  (input.bind Path.stem?).getD "out".toList ++ ".bin".toList

def encode (t : Text) : List UInt8 := (String.ofList t).toUTF8.toList

def binaryEffect (o : Options) (a : Assembly) : Effect :=
  let bytes := Image.toBytes (if o.littleEndian then .little else .big) a.words
  let target := (o.output.or o.target).getD (defaultTarget o)
  if target = ['-'] then .print bytes else .write target bytes

def listingEffects (o : Options) (a : Assembly) : List Effect :=
  if o.listing.isNone && !o.verbose then []
  else
    let listing := encode <|
      match o.format with
      | .text => Listing.render a.entries
      | .json => (Listing.report a).render
    (o.listing.map fun path => Effect.write path listing).toList ++
      (if o.verbose then [.print listing] else [])

/-- An assembly that reached no fixed point or has faulty entries is a failure. -/
def verdict (a : Assembly) : List Effect :=
  match a.failure? with
  | some message => [.fail message]
  | none =>
    match a.faulty.length with
    | 0 => []
    | n =>
      [.fail ("assembly finished with ".toList ++ Numeral.decimal n ++ " error(s)".toList)]

def effects (o : Options) (a : Assembly) : List Effect :=
  (if o.quiet then [] else (Listing.diagnostics a.entries).map .complain) ++
    binaryEffect o a :: listingEffects o a ++ verdict a

def run (o : Options) (env : Environment) : Except Abort (List Effect) :=
  match assemble o env with
  | .ok a => .ok (effects o a)
  | .error (.failure message) => .ok [.fail message]
  | .error (.abort a) => .error a

/-- The line on the error output for a failure. -/
def failureLine (message : Text) : Text := "Error: ".toList ++ message

def writeFailure (path : Text) : Text := "writing ".toList ++ path

/-- What effects leave behind. -/
structure Trace where
  tree : Tree
  printed : List UInt8 := []
  complaints : List Text := []
  failed : Bool := false
  deriving DecidableEq, Repr

/-- Carries out effects on files in memory. A file that cannot be written is a failure. -/
def Trace.perform (t : Trace) : List Effect → Trace
  | [] => t
  | .complain line :: rest => { t with complaints := t.complaints ++ [line] }.perform rest
  | .print bytes :: rest => { t with printed := t.printed ++ bytes }.perform rest
  | .fail message :: _ => { t with complaints := t.complaints ++ [failureLine message], failed := true }
  | .write path bytes :: rest =>
    match t.tree.write? path bytes with
    | some tree => { t with tree := tree }.perform rest
    | none =>
      { t with complaints := t.complaints ++ [failureLine (writeFailure path)], failed := true }

end Dcpu.Command
