import MacroAsm.Numeral
import MacroAsm.Text.Cut

set_option autoImplicit false

/-! # Placeholders

The lines of a macro hold `%1`, `%2`, … for the operands of a use, counted from one, and `%uid` for
the number of the expansion. They are replaced in one pass; an operand that looks like a placeholder
stays as it is. -/

namespace MacroAsm

/-- A place to be filled in a line of a macro. -/
inductive Placeholder where
  | uid
  | argument (digits : List Char)
  deriving DecidableEq, Repr

/-- A placeholder asks for an operand that the use does not have. -/
structure PlaceholderError where
  digits : List Char
  count : Nat
  deriving DecidableEq, Repr

/-- The wording of the error. -/
def PlaceholderError.message (e : PlaceholderError) : String :=
  let key := String.ofList e.digits
  s!"Macro argument `%{key}` is out of range, the macro takes {e.count} argument(s)"

namespace Placeholder

/-- Read a placeholder behind its mark. -/
def read? : List Char → Option (Placeholder × List Char)
  | 'u' :: 'i' :: 'd' :: rest => some (.uid, rest)
  | cs =>
    match Text.readRun? Char.isDigit cs with
    | some (digits, rest) => some (.argument digits, rest)
    | none => none

/-- A line cut at its placeholders. -/
def cut (line : String) : Text.Cut Placeholder :=
  Text.Cut.ofChars '%' read? line.toList

/-- The operand that digits ask for. -/
def argument? (args : List String) (digits : List Char) : Option String :=
  match Numeral.readDigits args.length .decimal digits with
  | .ok (n + 1) => args[n]?
  | _ => none

/-- What fills a placeholder, if there is such a thing. -/
def value? (args : List String) (uid : Nat) : Placeholder → Option String
  | .uid => some (toString uid)
  | .argument digits => argument? args digits

/-- The digits of a placeholder that cannot be filled. -/
def missing? (args : List String) : Placeholder → Option (List Char)
  | .uid => none
  | .argument digits => if (argument? args digits).isSome then none else some digits

/-- Fill the placeholders of a line. Where some cannot be filled, the last of them is reported. -/
def fill (line : String) (args : List String) (uid : Nat) : Except PlaceholderError String :=
  let c := cut line
  match (c.tokens.filterMap (missing? args)).getLast? with
  | some digits => .error ⟨digits, args.length⟩
  | none => .ok (c.fillText fun p => (value? args uid p).getD "")

end Placeholder

end MacroAsm
