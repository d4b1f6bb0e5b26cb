import MacroAsm.Isa.OperandKind
import MacroAsm.Text.Blank
import MacroAsm.Text.Cut

set_option autoImplicit false

/-! # Macro openers

The opener of a macro is the line that uses it, with a `%type` token in the place of each operand.
It is kept in pieces: characters that must stand as they are, gaps, commas and operands. A gap takes
at least one blank, a comma may have blanks around it, and an operand takes text of the shape of its
kind (`Isa/OperandKind.lean`). An operand takes as much as it can and gives back only what the
pieces behind it need.

How a line is read as a use of a macro is told in `Macros/Matching.lean`. -/

namespace MacroAsm

open Text (Shape)

/-- A piece of an opener. -/
inductive Piece where
  | char (c : Char)
  | gap
  | comma
  | operand (k : OperandKind)
  deriving DecidableEq, Repr

/-- The pieces of a macro's opener. -/
abbrev Opener := List Piece

namespace Piece

/-- The shape of the text that a piece takes. -/
def shape : Piece → Shape
  | .char c => .text [c]
  | .gap => .some .blanks
  | .comma => .seq (.many .blanks) (.seq (.text [',']) (.many .blanks))
  | .operand k => k.shape

/-- Whether a text that a piece takes may begin with a character. -/
def begins (c : Char) : Piece → Bool
  | .char d => c == d
  | .gap => Text.isBlank c
  | .comma => c == ',' || Text.isBlank c
  | .operand k => !(Shape.after c [k.shape]).isEmpty

theorem after_eq_nil_of_not_begins {c : Char} {p : Piece} (h : p.begins c = false) :
    Shape.after c [p.shape] = [] := by
  cases p with
  | char d => simpa [begins, shape, Shape.after, Shape.afterFirst] using h
  | gap => simp_all [begins, shape, Shape.after, Shape.afterFirst, Text.CharSet.has_blanks]
  | comma => simp_all [begins, shape, Shape.after, Shape.afterFirst, Text.CharSet.has_blanks]
  | operand k => simpa [begins, shape] using h

/-- Whether a piece is an operand. -/
def isOperand : Piece → Bool
  | .operand _ => true
  | _ => false

/-- A piece as it is written in normal spacing. -/
def written : Piece → List Char
  | .char c => [c]
  | .gap => [' ']
  | .comma => [',']
  | .operand k => k.token.toList

/-- The piece that a character of an opener stands for. -/
def ofChar (c : Char) : Piece :=
  if c = ',' then .comma else if c = ' ' then .gap else .char c

end Piece

namespace Opener

/-! ## Reading and writing -/

/-- The letters of a type token. -/
def readToken? (cs : List Char) : Option (List Char × List Char) :=
  let isLetter (c : Char) : Bool := 'a' ≤ c && c ≤ 'z'
  some (cs.takeWhile isLetter, cs.dropWhile isLetter)

/-- The pieces of a token and of the text behind it. -/
def ofToken (part : List Char × List Char) : Except OperandKind.Unknown Opener :=
  match OperandKind.parse (String.ofList ('%' :: part.1)) with
  | .ok k => .ok (.operand k :: part.2.map Piece.ofChar)
  | .error e => .error e

/-- The pieces of an opener in normal spacing; every token must name a kind. -/
def ofChars (cs : List Char) : Except OperandKind.Unknown Opener :=
  let cut := Text.Cut.ofChars '%' readToken? cs
  match cut.rest.mapM ofToken with
  | .ok parts => .ok (cut.lead.map Piece.ofChar ++ parts.flatten)
  | .error e => .error e

/-- An opener as it is written in normal spacing. -/
def written (o : Opener) : String :=
  String.ofList (o.flatMap Piece.written)

/-- The kinds of the operands of an opener, in order. -/
def kinds (o : Opener) : List OperandKind :=
  o.filterMap fun p =>
    match p with
    | .operand k => some k
    | _ => none

end Opener

end MacroAsm
