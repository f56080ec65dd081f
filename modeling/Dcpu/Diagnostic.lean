/-! What can be wrong with a line: faults, which make an assembly fail, and cautions. -/
namespace Dcpu

inductive Fault where
  | invalidLabel | duplicateName | invalidOpcode | invalidParameter | illegalExpression
  | invalidDirective | insufficientParameters | tooManyParameters | uncoupledStatement
  | fileNotFound | undefinedReference | alignToPast | invalidMacroDefinition
  deriving DecidableEq, Repr

namespace Fault

def all : List Fault :=
  [.invalidLabel, .duplicateName, .invalidOpcode, .invalidParameter, .illegalExpression,
    .invalidDirective, .insufficientParameters, .tooManyParameters, .uncoupledStatement,
    .fileNotFound, .undefinedReference, .alignToPast, .invalidMacroDefinition]

/-- The name in reports. -/
def name : Fault → String
  | .invalidLabel => "InvalidLabel"
  | .duplicateName => "DuplicateName"
  | .invalidOpcode => "InvalidOpcode"
  | .invalidParameter => "InvalidParameter"
  | .illegalExpression => "IllegalExpression"
  | .invalidDirective => "InvalidDirective"
  | .insufficientParameters => "InsufficientParameters"
  | .tooManyParameters => "TooManyParameters"
  | .uncoupledStatement => "UncoupledStatement"
  | .fileNotFound => "FileNotFound"
  | .undefinedReference => "UndefinedReference"
  | .alignToPast => "AlignToPast"
  | .invalidMacroDefinition => "InvalidMacroDefinition"

def message : Fault → String
  | .invalidLabel => "Invalid label name."
  | .duplicateName => "Duplicate name."
  | .invalidOpcode => "Invalid opcode."
  | .invalidParameter => "Invalid parameter."
  | .illegalExpression => "Illegal expression."
  | .invalidDirective => "Invalid preprocessor directive."
  | .insufficientParameters => "Insufficient parameters."
  | .tooManyParameters => "Too many parameters."
  | .uncoupledStatement => "Uncoupled END, ELSEIF, ELIF, ELSE or ENDMACRO directive."
  | .fileNotFound => "File not found."
  | .undefinedReference => "Undefined reference."
  | .alignToPast => "Attempted to .align to past address."
  | .invalidMacroDefinition => "Invalid macro definition."

def ofName? (n : String) : Option Fault := all.find? fun f => f.name == n

end Fault

inductive Caution where
  | redundantStatement | assignToLiteral | addressWrap
  deriving DecidableEq, Repr

namespace Caution

def all : List Caution := [.redundantStatement, .assignToLiteral, .addressWrap]

/-- The name in reports. -/
def name : Caution → String
  | .redundantStatement => "RedundantStatement"
  | .assignToLiteral => "AssignToLiteral"
  | .addressWrap => "AddressWrap"

def message : Caution → String
  | .redundantStatement => "Redundant statement."
  | .assignToLiteral => "Attempted to assign to a literal."
  | .addressWrap => "Output runs past 0xFFFF; the address wrapped to 0."

def ofName? (n : String) : Option Caution := all.find? fun c => c.name == n

end Caution

/-- The message of the fault or caution with this name. -/
def diagnosticMessage? (n : String) : Option String :=
  ((Fault.ofName? n).map Fault.message).or ((Caution.ofName? n).map Caution.message)

end Dcpu
