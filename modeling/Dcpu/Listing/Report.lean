import Dcpu.Assembly.Run
import Dcpu.Json.Basic

/-! The listing of an assembly as JSON. -/
namespace Dcpu.Listing

def word (w : Word) : Json := .natural w.toNat

def nameOrNull (name : Option String) : Json := (name.map fun n => .string n.toList).getD .null

def field (name : String) (j : Json) : Text × Json := (name.toList, j)

def entryJson (e : Entry) : Json :=
  .object
    [field "code" (.string e.code), field "file" (.string e.file),
      field "line" (.natural e.line), field "kind" (.string e.kind.name.toList),
      field "output" (.array (e.output.map word)), field "address" (word e.address),
      field "error" (nameOrNull (e.fault.map Fault.name)),
      field "warning" (nameOrNull (e.caution.map Caution.name)), field "listed" (.bool e.listed)]

def labelJson (l : Label) : Json :=
  .object
    [field "name" (.string l.name), field "address" (word l.address),
      field "position" (.natural l.position)]

def report (a : Assembly) : Json :=
  .object
    [field "passes" (.natural a.passes), field "fixed_point" (.bool a.fixedPoint),
      field "entries" (.array (a.entries.map entryJson)),
      field "labels" (.array (a.symbols.sortedLabels.map labelJson)),
      field "equates" (.object (a.symbols.sortedEquates.map fun (name, w) => (name, word w)))]

end Dcpu.Listing
