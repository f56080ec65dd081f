import Dcpu.Json.Parser

/-! Settings of an assembly, and their JSON form. -/
namespace Dcpu

/-- `includePath` lists the directories in which `<file>` is looked for. -/
structure Settings where
  includePath : List Text := []
  longLiterals : Bool := false
  maxPasses : Nat := 10000
  deriving DecidableEq, Repr

namespace Settings

/-- Adds the directories of a list with semicolons between them; blank ones are skipped. -/
def addIncludes (s : Settings) (list : Text) : Settings :=
  let dirs := ((Text.splitOn ';' list).map Text.trim).filter fun d => !d.isEmpty
  { s with includePath := s.includePath ++ dirs }

def text? : Json → Option Text
  | .string t => some t
  | _ => none

def setIncludePath? (s : Settings) : Json → Option Settings
  | .array items => (items.mapM text?).map fun dirs => { s with includePath := dirs }
  | _ => none

def setLongLiterals? (s : Settings) : Json → Option Settings
  | .bool b => some { s with longLiterals := b }
  | _ => none

/-- The number of passes has to fit into sixty-four bits. -/
def setMaxPasses? (s : Settings) : Json → Option Settings
  | .natural n => if n < 0x10000000000000000 then some { s with maxPasses := n } else none
  | _ => none

/-- The fields in the order in which an array gives them. -/
def fields : List (String × (Settings → Json → Option Settings)) :=
  [("include_path", setIncludePath?), ("force_long_literals", setLongLiterals?),
    ("max_passes", setMaxPasses?)]

/-- Sets a field by its name. Other fields are ignored. -/
def setField? (s : Settings) (name : Text) (j : Json) : Option Settings :=
  match fields.find? fun f => f.1.toList == name with
  | some (_, set) => set s j
  | none => some s

/-- No known field occurs twice. -/
def isSingle (names : List Text) : Bool := fields.all fun f => names.count f.1.toList ≤ 1

/-- Settings from an object, or from an array with the fields in order. What is missing keeps its
default. -/
def ofJson? : Json → Option Settings
  | .object fs =>
    if isSingle (fs.map Prod.fst) then fs.foldlM (fun s (name, j) => s.setField? name j) {} else none
  | .array items =>
    if items.length ≤ fields.length then
      (fields.zip items).foldlM (fun s (field, j) => field.2 s j) {}
    else none
  | _ => none

/-- Reads settings from JSON text. -/
def parse? (t : Text) : Option Settings := (Json.parse? t).bind ofJson?

end Settings

end Dcpu
