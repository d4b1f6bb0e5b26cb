import MacroAsm.Isa.OperandKind
import MacroAsm.Isa.Register
import MacroAsm.Numeral
import MacroAsm.Text.Blank

set_option autoImplicit false

/-! # Operands

What an instruction is applied to. The first characters of an operand decide how the rest is read,
and a text that could be a numeral or an identifier is tried as a numeral first. -/

namespace MacroAsm

/-- An operand as it is written, before labels and variables have values. -/
inductive Operand where
  | register (r : Register)
  | pointer (r : Register)
  | variable (name : String)
  | address (a : Int)
  | number (n : Int)
  | label (name : String)
  | quoted (s : String)
  deriving DecidableEq, Repr

/-- Why a text is no operand. -/
inductive OperandError where
  | register (e : RegisterError)
  | invalidVariable (text : String)
  | invalidAddress (text : String)
  | unreadable (text : String)
  deriving DecidableEq, Repr

/-- The wording of an error. -/
def OperandError.message : OperandError → String
  | .register e => e.message
  | .invalidVariable text => s!"Invalid variable: {text}"
  | .invalidAddress text => s!"Invalid address: {text}"
  | .unreadable text => s!"Cannot parse operand `{text}`"

/-! ## Identifiers -/

/-- Whether an identifier may begin with a character. -/
def isIdentStart (c : Char) : Bool :=
  c.isAlpha || c == '_'

/-- Whether an identifier may go on with a character. -/
def isIdentRest (c : Char) : Bool :=
  c.isAlphanum || c == '_' || c == '.'

/-- Whether characters form an identifier. -/
def isIdentChars : List Char → Bool
  | [] => false
  | c :: cs => isIdentStart c && cs.all isIdentRest

/-- Whether a text is an identifier: ASCII letters, digits, `_` and `.`, not beginning with a digit
    or a dot. -/
def isIdent (s : String) : Bool :=
  isIdentChars s.toList

namespace Operand

/-! ## Reading -/

/-- The characters between two quotes that enclose the whole text. -/
def unquote? (cs : List Char) : Option (List Char) :=
  match cs with
  | '"' :: rest =>
    if rest.getLast? = some '"' then some rest.dropLast else none
  | _ => none

/-- Read an operand from characters without blanks at the ends. -/
def ofChars (cs : List Char) : Except OperandError Operand :=
  match cs with
  | '*' :: '&' :: rest =>
    match Register.parse (String.ofList ('&' :: rest)) with
    | .ok r => .ok (.pointer r)
    | .error e => .error (.register e)
  | '*' :: rest =>
    if isIdentChars rest then .ok (.variable (String.ofList rest))
    else .error (.invalidVariable (String.ofList cs))
  | '&' :: _ =>
    match Register.parse (String.ofList cs) with
    | .ok r => .ok (.register r)
    | .error e => .error (.register e)
  | '$' :: rest =>
    match Numeral.ofChars rest with
    | .ok a => .ok (.address a)
    | .error _ => .error (.invalidAddress (String.ofList cs))
  | _ =>
    match unquote? cs with
    | some inner => .ok (.quoted (String.ofList inner))
    | none =>
      match Numeral.ofChars cs with
      | .ok n => .ok (.number n)
      | .error _ =>
        if isIdentChars cs then .ok (.label (String.ofList cs))
        else .error (.unreadable (String.ofList cs))

/-- Read an operand; blanks around it do not count. -/
def parse (s : String) : Except OperandError Operand :=
  ofChars (Text.trim s.toList)

/-! ## Kind and text -/

/-- The kind of an operand. -/
def kind : Operand → OperandKind
  | .register _ => .register
  | .pointer _ => .pointer
  | .variable _ => .variable
  | .address _ => .address
  | .number _ => .number
  | .label _ => .label
  | .quoted _ => .quoted

/-- An operand as it is written, numbers in decimal. -/
def written : Operand → String
  | .register r => r.written
  | .pointer r => s!"*{r.written}"
  | .variable name => s!"*{name}"
  | .address a => s!"${a}"
  | .number n => toString n
  | .label name => name
  | .quoted s => s!"\"{s}\""

end Operand

end MacroAsm
