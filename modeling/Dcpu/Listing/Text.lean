import Dcpu.Listing.Entry
import Dcpu.Text.Numeral

/-! The listing as text, and the diagnostics. -/
namespace Dcpu.Listing

/-- Directives whose words are listed in rows of their own. -/
def dataNames : List String :=
  ["dat", "dw", "ascii", "asciiz", "asciip", "asciic", "align", "fill", "pad", "incbin", "incpack",
    "reserve"]

def isDataCode : Text → Bool
  | [] => false
  | c :: t =>
    (c == '.' || c == '#') &&
      (Text.words t).head?.any fun name => dataNames.any fun n => n.toList == Text.lower name

def isData (e : Entry) : Bool := e.kind == .directive && e.fault.isNone && isDataCode e.code

def hexWords (ws : List Word) : Text := Text.joinWith [' '] (ws.map Numeral.hexWord)

/-- Words in rows of eight with their addresses. -/
def dataRows (address : Word) (ws : List Word) : List (Word × List Word) :=
  match ws with
  | [] => []
  | w :: rest => (address, w :: rest.take 7) :: dataRows (address + 8) (rest.drop 7)
termination_by ws.length
decreasing_by
  simp only [List.length_drop, List.length_cons]
  omega

def lineColumn (e : Entry) : Text := "(line ".toList ++ Numeral.decimal e.line ++ "): ".toList

/-- The widths of the columns for the file and the line. The first one is counted in bytes. -/
structure Widths where
  file : Nat
  line : Nat
  deriving DecidableEq, Repr

def Widths.ofEntries (es : List Entry) : Widths :=
  ⟨(es.map fun e => Text.utf8Length e.file + 1).foldl max 0,
    (es.map fun e => (lineColumn e).length).foldl max 0⟩

/-- A line that starts with the place of an entry. -/
def row (w : Widths) (e : Entry) (address : Word) (t : Text) : Text :=
  let location :=
    if e.listed then "[0x".toList ++ Numeral.hexWord address ++ "] ".toList
    else "[NOLIST] ".toList
  Text.padEnd w.file e.file ++ Text.padEnd w.line (lineColumn e) ++ location ++ t ++ ['\n']

/-- The lines of an entry. Data directives have their words below, other entries beside them; only
the others show their diagnostics. -/
def entryRows (w : Widths) (e : Entry) : List Text :=
  if isData e then
    row w e e.address e.code ::
      (dataRows e.address e.output).map fun (address, ws) => row w e address (hexWords ws)
  else
    (e.fault.map fun f => row w e e.address ("ERROR: ".toList ++ f.message.toList)).toList ++
    (e.caution.map fun c => row w e e.address ("WARNING: ".toList ++ c.message.toList)).toList ++
    [row w e e.address (Text.padEnd 16 (hexWords e.output) ++ e.code)]

def render (es : List Entry) : Text := (es.flatMap (entryRows (.ofEntries es))).flatten

/-- A diagnostic with its place. -/
def diagnostic (kind : String) (e : Entry) (message : String) : Text :=
  kind.toList ++ ' ' :: e.file ++ " (line ".toList ++ Numeral.decimal e.line ++ "): ".toList ++
    message.toList

def diagnostics (es : List Entry) : List Text :=
  es.flatMap fun e =>
    (e.fault.map fun f => diagnostic "Error" e f.message).toList ++
    (e.caution.map fun c => diagnostic "Warning" e c.message).toList

end Dcpu.Listing
