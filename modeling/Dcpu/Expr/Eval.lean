import Dcpu.Abort
import Dcpu.Expr.Form
import Dcpu.Expr.Result
import Dcpu.Hook
import Dcpu.Text.Escape

/-! Evaluation of expressions. The first group in parentheses is replaced by its value in decimal
until none is left; what remains is split at one operator and both sides are evaluated. -/
namespace Dcpu.Expr

/-- What an expression can see. `literal` assembles an instruction in braces and gives its first
word. -/
structure Context where
  symbols : SymbolTable
  hooks : Hooks
  position : Position
  literal : Text → Except Abort (Option Word)

/-- The code of the one character before the closing quote. -/
def charLiteral? (t : Text) : Option Word := do
  let inner ← Text.dropLast? '\'' t
  match ← Text.unescape? inner with
  | [c] => Word.ofNat? c.toNat
  | _ => none

namespace Context

def symbol (c : Context) (token : Text) : Result :=
  let name := Text.lower (Name.qualify c.position.scope token)
  let found : Result :=
    match c.symbols.equate? name with
    | some v => .ofWord v
    | none =>
      match c.symbols.label? name with
      | some l => .address? (some l.address)
      | none => .failed
  { found with references := [name] }

/-- The address of an anonymous label, by the signs after a `$`. -/
def walk? (c : Context) (signs : Text) : Option Word :=
  if signs.all (· == '+') then c.symbols.forward? c.position.root signs.length
  else if signs.all (· == '-') then c.symbols.backward? c.position.root signs.length
  else none

def word (c : Context) (token : Text) : Result :=
  if token.head?.any Char.isDigit then .ofWord? (Numeral.number? token)
  else if Text.lower token = "true".toList then .ofWord 1
  else if Text.lower token = "false".toList then .ofWord 0
  else c.symbol token

/-- The value of a token without operators. -/
def token (c : Context) (t : Text) : Except Abort Result :=
  match c.hooks.value? t with
  | some v => .ok (.ofWord v)
  | none =>
    match t with
    | '\'' :: rest => .ok (.ofWord? (charLiteral? rest))
    | '{' :: rest =>
      match Text.dropLast? '}' rest with
      | some inner => (c.literal inner).map .ofWord?
      | none => .ok (c.symbol t)
    | ['$'] => .ok (.address? (some c.position.address))
    | '$' :: signs => .ok (.address? (c.walk? signs))
    | _ => .ok (c.word t)

end Context

/-- The result of an operator from the results of both sides. Texts are compared without regard to
case, whether or not they have values. -/
def combine (s : Split) (left right : Result) : Result :=
  match s.op.comparesText? with
  | some whenSame =>
    { value := .ofBool (Text.sameFolded (Text.trim s.left) (Text.trim s.right) == whenSame)
      ok := true
      references := NameSet.union left.references right.references }
  | none =>
    let value := if left.ok && right.ok then s.op.compute? left.value right.value else none
    ((Result.ofWord? value).absorb left).absorb right

/-- Evaluates an expression. A group right after the name of a function is a call. -/
def eval (c : Context) (text : Text) : Except Abort Result :=
  match h : form text with
  | .empty => .ok .failed
  | .group g =>
    if g.followsWide then .error .brokenName
    else
      match c.hooks.function? g.name with
      | some f =>
        match f (Text.trim g.inner) c.symbols with
        | none => .ok .failed
        | some v => eval c (g.lead ++ Numeral.decimal v.toNat ++ g.after)
      | none => do
        let inner ← eval c g.inner
        if inner.ok then
          let r ← eval c (g.before ++ Numeral.decimal inner.value.toNat ++ g.after)
          return r.absorb inner
        else return inner
  | .complement operand => (eval c operand).map (Result.mapValue (~~~ ·))
  | .negation operand => (eval c operand).map (Result.mapValue (0 - ·))
  | .binary s => do
    let left ← eval c s.left
    let right ← eval c s.right
    return combine s left right
  | .token t => c.token t
termination_by weight text
decreasing_by
  · exact weight_replace_lt h (weight_lead_le g) v
  · exact weight_part_lt (by simp [h, Form.parts])
  · exact weight_replace_lt h (Nat.le_refl _) _
  · exact weight_part_lt (by simp [h, Form.parts])
  · exact weight_part_lt (by simp [h, Form.parts])
  · exact weight_part_lt (by simp [h, Form.parts])
  · exact weight_part_lt (by simp [h, Form.parts])

end Dcpu.Expr
