import Dcpu.Command.Run

/-! The command line. -/
namespace Dcpu.Command

/-- What is found at a path. -/
def lookUp (path : Text) : IO Node := do
  try
    let bytes ← IO.FS.readBinFile (String.ofList path)
    return .file bytes.toList
  catch
    | .inappropriateType _ code _ => return if code = 21 then .directory else .blocked
    | _ => return .missing

/-- Runs with the files that are known and looks up those that turn out to be needed. -/
partial def runKnown (o : Options) (env : Environment) (known : List (Text × Node)) :
    IO (Except Abort (List Effect)) := do
  match run o { env with disk := .ofKnown known } with
  | .error (.unread path) =>
    let n ← lookUp path
    runKnown o env ((path, n) :: known)
  | result => return result

def fail (message : Text) : IO UInt32 := do
  IO.eprintln (String.ofList (failureLine message))
  return 1

def perform : List Effect → IO UInt32
  | [] => return 0
  | .complain line :: rest => do
    IO.eprintln (String.ofList line)
    perform rest
  | .print bytes :: rest => do
    let out ← IO.getStdout
    out.write ⟨bytes.toArray⟩
    out.flush
    perform rest
  | .fail message :: _ => fail message
  | .write path bytes :: rest => do
    let written ← (IO.FS.writeBinFile (String.ofList path) ⟨bytes.toArray⟩).toBaseIO
    match written with
    | .ok _ => perform rest
    | .error _ => fail (writeFailure path)

def usage : String :=
  "Usage: [OPTIONS] [INPUT] [OUTPUT]\n\n" ++
  "  -o, --output FILE              output binary, - for standard output\n" ++
  "  -l, --listing FILE             write a listing\n" ++
  "      --little-endian            low bytes first\n" ++
  "      --long-literals            never pack literals\n" ++
  "  -e, --equate NAME VALUE        define a name\n" ++
  "  -i, --include DIR              search DIR for included files\n" ++
  "  -p, --pipe SOURCE              assemble SOURCE\n" ++
  "  -w, --working-directory DIR    resolve included files from DIR\n" ++
  "  -q, --quiet                    no diagnostics\n" ++
  "  -v, --verbose                  print the listing\n" ++
  "      --format FORMAT            text or json\n" ++
  "      --config FILE              settings\n"

/-- Runs the command with its options. -/
def execute (o : Options) : IO UInt32 := do
  let input ←
    if o.pipe.isNone && o.input = some ['-'] then (← IO.getStdin).readToEnd else pure ""
  let list ← IO.getEnv "ORGINCLUDE"
  let env : Environment :=
    { disk := .ofKnown [], input := input.toList, includeList := list.map String.toList }
  match ← runKnown o env [] with
  | .ok effects => perform effects
  | .error _ =>
    IO.eprintln "the expression cannot be read"
    return 101

end Dcpu.Command

def main (args : List String) : IO UInt32 :=
  match Dcpu.Options.parse (args.map String.toList) with
  | .ok o => Dcpu.Command.execute o
  | .error .usage => do
    IO.eprint Dcpu.Command.usage
    return 2
  | .error _ => do
    IO.print Dcpu.Command.usage
    return 0
