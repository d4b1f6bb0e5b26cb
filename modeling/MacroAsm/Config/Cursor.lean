set_option autoImplicit false

/-! # Reading a text of a configuration file

What counts as a blank, a line break or the end of a word in such a text, and a cursor that knows its
place in it. Indentation, document marks and the reach of a key are all matters of place. -/

namespace MacroAsm.Config

/-! ## Characters -/

/-- The characters that may stand in a file. -/
def isAllowed (c : Char) : Bool :=
  let n := c.toNat
  c == '\t' || c == '\n' || c == '\r' || (0x20 ≤ n && n ≤ 0x7E) || n == 0x85 ||
    (0xA0 ≤ n && n ≤ 0xFFFD) || 0x10000 ≤ n

/-- The blanks within a line. -/
def isBlank (c : Char) : Bool :=
  c == ' ' || c == '\t'

/-- The line breaks. Those that separate lines or paragraphs keep their form; all others are written
    as line feeds, see `unifyBreaks`. -/
def isBreak (c : Char) : Bool :=
  c == '\n' || c == '\u2028' || c == '\u2029'

/-- Put one more character in front of a text whose line ends are line feeds, given whether the text
    begins with a line feed that was one before. -/
def unifyBreak (c : Char) (read : List Char × Bool) : List Char × Bool :=
  match c with
  | '\n' => ('\n' :: read.1, true)
  | '\r' => (if read.2 then read.1 else '\n' :: read.1, false)
  | '\u0085' => ('\n' :: read.1, false)
  | c => (c :: read.1, false)

/-- A text with a line feed for each carriage return, with or without a line feed behind it, and for
    each next-line character. -/
def unifyBreaks (cs : List Char) : List Char :=
  (cs.foldr unifyBreak ([], false)).1

/-- Whether a text is at the end of a word: at a blank, at a line break or at its own end. -/
def atGap : List Char → Bool
  | [] => true
  | c :: _ => isBlank c || isBreak c

/-- The characters of names: of anchors, handles and directives. -/
def isNameChar (c : Char) : Bool :=
  c.isAlphanum || c == '-' || c == '_'

/-! ## Places -/

/-- A place in a text: how many characters, line breaks, and characters of the line are before it. -/
structure Place where
  index : Nat
  line : Nat
  column : Nat
  deriving Repr

namespace Place

/-- The beginning of a text. -/
def start : Place := ⟨0, 0, 0⟩

/-- The place behind some characters of a line. -/
def skip (p : Place) (n : Nat) : Place :=
  { p with index := p.index + n, column := p.column + n }

/-- The place behind a character. -/
def after (p : Place) (c : Char) : Place :=
  if isBreak c then ⟨p.index + 1, p.line + 1, 0⟩ else p.skip 1

end Place

/-- A place in a text, and the text from there. -/
structure Cursor where
  place : Place
  rest : List Char

namespace Cursor

/-- Pass the characters of a class, from a place. -/
def skipFrom (inClass : Char → Bool) (p : Place) : List Char → Cursor
  | [] => ⟨p, []⟩
  | c :: cs => if inClass c then skipFrom inClass (p.after c) cs else ⟨p, c :: cs⟩

/-- Pass the characters of a class. -/
def skipWhile (inClass : Char → Bool) (s : Cursor) : Cursor :=
  skipFrom inClass s.place s.rest

/-- Pass one character. -/
def next (s : Cursor) : Cursor :=
  match s.rest with
  | [] => s
  | c :: cs => ⟨s.place.after c, cs⟩

/-- Pass some characters of a line. -/
def skip (s : Cursor) (n : Nat) : Cursor :=
  ⟨s.place.skip n, s.rest.drop n⟩

/-- The characters of a class from here on, and the cursor behind them. -/
def run (inClass : Char → Bool) (s : Cursor) : List Char × Cursor :=
  (s.rest.takeWhile inClass, s.skipWhile inClass)

/-- Pass the blanks and the comment that may end a line, and its break; nothing else may be left of
    the line. -/
def endLine? (s : Cursor) : Option Cursor :=
  let s := s.skipWhile isBlank
  let s := if s.rest.head? == some '#' then s.skipWhile (!isBreak ·) else s
  match s.rest with
  | [] => some s
  | c :: _ => if isBreak c then some s.next else none

end Cursor

/-! ## Document marks -/

/-- The mark at the start of a document. -/
def startMark : List Char := ['-', '-', '-']

/-- The mark at the end of a document. -/
def endMark : List Char := ['.', '.', '.']

/-- Whether a mark stands at the beginning of a line. -/
def atMark (mark : List Char) (p : Place) (cs : List Char) : Bool :=
  p.column == 0 && mark.isPrefixOf cs && atGap (cs.drop 3)

/-- Whether a document starts or ends here. -/
def atAnyMark (p : Place) (cs : List Char) : Bool :=
  atMark startMark p cs || atMark endMark p cs

end MacroAsm.Config
