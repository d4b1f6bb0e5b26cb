import MacroAsm.Text.Shape

set_option autoImplicit false

/-! # Kinds of operands

The seven kinds of operands, their tokens (`%register`, …) as instruction forms and macro openers
write them, and the shape of text that each kind takes where a macro use is matched. -/

namespace MacroAsm

open Text (CharSet Shape)

/-- The kinds of operands. -/
inductive OperandKind where
  | label
  | variable
  | address
  | number
  | register
  | pointer
  | quoted
  deriving DecidableEq, Repr

namespace OperandKind

/-- All kinds. -/
def all : List OperandKind :=
  [.label, .variable, .address, .number, .register, .pointer, .quoted]

/-- The token of a kind. -/
def token : OperandKind → String
  | .label => "%label"
  | .variable => "%variable"
  | .address => "%address"
  | .number => "%number"
  | .register => "%register"
  | .pointer => "%registerpointer"
  | .quoted => "%string"

/-- A token names no kind. -/
structure Unknown where
  text : String
  deriving DecidableEq, Repr

/-- The wording of the error, which lists all tokens. -/
def Unknown.message (e : Unknown) : String :=
  let tokens := String.intercalate ", " (all.map token)
  s!"Invalid argument type `{e.text}`, valid are [" ++ tokens ++ "]"

/-- The kind of a token. -/
def parse (s : String) : Except Unknown OperandKind :=
  match all.find? (fun k => k.token == s) with
  | some k => .ok k
  | none => .error ⟨s⟩

/-! ## Shapes -/

/-- The letters with which an identifier begins in lower-cased code. -/
def identStart : CharSet := ⟨false, [('a', 'z'), ('_', '_')]⟩

/-- The characters with which an identifier goes on in lower-cased code. -/
def identRest : CharSet := ⟨false, [('a', 'z'), ('0', '9'), ('_', '_'), ('.', '.')]⟩

/-- The decimal digits. -/
def digits : CharSet := ⟨false, [('0', '9')]⟩

/-- An identifier in lower-cased code. -/
def identShape : Shape := .seq (.one identStart) (.many identRest)

/-- A magnitude: a base and its digits in lower case, the decimal base unnamed. -/
def magnitudeShape : Shape :=
  .choice (.seq (.text ['0', 'x']) (.some ⟨false, [('0', '9'), ('a', 'f')]⟩))
    (.choice (.seq (.text ['0', 'b']) (.some ⟨false, [('0', '0'), ('1', '1')]⟩))
      (.choice (.seq (.text ['0', 'o']) (.some ⟨false, [('0', '7')]⟩))
        (.some digits)))

/-- The shape of an operand of each kind, as a macro use is matched. -/
def shape : OperandKind → Shape
  | .label => identShape
  | .variable => .seq (.text ['*']) identShape
  | .address => .seq (.text ['$']) magnitudeShape
  | .number => .seq (.maybe '-') magnitudeShape
  | .register => .seq (.text ['&', 'r']) (.some digits)
  | .pointer => .seq (.text ['*', '&', 'r']) (.some digits)
  | .quoted => .seq (.text ['"']) (.seq (.many ⟨true, [('"', '"')]⟩) (.text ['"']))

/-- The shape in its notation, as a captured group. -/
def pattern (k : OperandKind) : String :=
  String.ofList ('(' :: k.shape.written ++ [')'])

end OperandKind

end MacroAsm
