import MacroAsm.Config.Cursor
import MacroAsm.Numeral

set_option autoImplicit false

/-! # Scalars of configuration files

Keys and values are plain, or stand in single or double quotes, or are blocks of lines. Plain and
quoted scalars may go on over several lines, which are then folded: the blanks around a line break are
dropped, a single break reads as a space, and of several the first is dropped.

Each reader takes the text behind what announces its scalar and yields the scalar's text and the
cursor behind it. -/

namespace MacroAsm.Config

/-- How a scalar is written. -/
inductive ScalarStyle where
  | plain
  | quoted
  | literal
  | folded
  deriving DecidableEq, Repr

/-- A scalar and how it is written. -/
structure Scalar where
  text : List Char
  style : ScalarStyle
  deriving DecidableEq, Repr

/-- The empty plain scalar, which stands where nothing is written. -/
def Scalar.empty : Scalar := ⟨[], .plain⟩

/-! ## Gaps between words -/

/-- What has been read of a gap, last character first: blanks of a line, or line breaks. A gap that is
    joined began with an escaped line break, which is not among its breaks. -/
inductive Gap where
  | blanks (cs : List Char)
  | breaks (joined : Bool) (cs : List Char)

namespace Gap

/-- No gap. -/
def none : Gap := .blanks []

/-- Whether there is no gap. -/
def isNone : Gap → Bool
  | .blanks cs => cs.isEmpty
  | .breaks _ _ => false

/-- Whether a gap has a line break. -/
def isBroken : Gap → Bool
  | .blanks _ => false
  | .breaks _ _ => true

/-- A gap with one more blank or line break. -/
def push (g : Gap) (c : Char) : Gap :=
  match g with
  | .blanks cs => if isBreak c then .breaks false [c] else .blanks (c :: cs)
  | .breaks joined cs => if isBreak c then .breaks joined (c :: cs) else g

/-- The text of line breaks: one line feed is a space, and of several breaks the first is dropped if it
    is a line feed. -/
def fold : List Char → List Char
  | ['\n'] => [' ']
  | '\n' :: cs => cs
  | cs => cs

/-- The text of a gap. -/
def text : Gap → List Char
  | .blanks cs => cs.reverse
  | .breaks true cs => cs.reverse
  | .breaks false cs => fold cs.reverse

/-- A text and a gap behind it, last character first. -/
def onto (g : Gap) (text : List Char) : List Char :=
  g.text.reverseAux text

end Gap

/-! ## Plain scalars -/

/-- The characters that shape a mapping in braces. -/
def flowMarks : List Char :=
  ",[]\x7b\x7d".toList

/-- The characters that a plain scalar begins with under no circumstances. -/
def indicators : List Char :=
  ",[]\x7b\x7d#&*!|>'\"%@`".toList

/-- Whether a plain scalar can begin here. A dash, a question mark or a colon needs something right
    behind it. -/
def plainStart : List Char → Bool
  | [] => false
  | c :: cs =>
    if c == '-' || c == '?' || c == ':' then !atGap cs
    else !isBlank c && !isBreak c && !indicators.contains c

/-- Whether a plain scalar ends before this character within a word. -/
def endsPlain (inBraces : Bool) (c : Char) (cs : List Char) : Bool :=
  (c == ':' && atGap cs) || (inBraces && flowMarks.contains c)

/-- Whether a colon stands right before a mark of a mapping in braces, which is not allowed. -/
def badColon (c : Char) (cs : List Char) : Bool :=
  c == ':' && cs.head?.any fun d => d == '?' || flowMarks.contains d

/-- A plain scalar, the cursor behind it and the gap after it, and whether that gap has a line break. -/
structure PlainRead where
  text : List Char
  behind : Cursor
  broken : Bool

/-- Read a plain scalar from its first character. `text` holds what has been read, last character
    first, and `gap` what came after that. Further lines must not begin before the column `least`,
    unless the scalar stands in braces, and no tab may stand before that column. -/
def readPlain (inBraces : Bool) (least : Nat) (text : List Char) (gap : Gap) (p : Place) :
    List Char → Option PlainRead
  | [] => some ⟨text.reverse, ⟨p, []⟩, gap.isBroken⟩
  | c :: cs =>
    if isBreak c then readPlain inBraces least text (gap.push c) (p.after c) cs
    else if isBlank c then
      if gap.isBroken && c == '\t' && p.column < least then none
      else readPlain inBraces least text (gap.push c) (p.after c) cs
    else if !gap.isNone &&
        (c == '#' || atAnyMark p (c :: cs) || (!inBraces && p.column < least)) then
      some ⟨text.reverse, ⟨p, c :: cs⟩, gap.isBroken⟩
    else if inBraces && badColon c cs then none
    else if endsPlain inBraces c cs then some ⟨text.reverse, ⟨p, c :: cs⟩, gap.isBroken⟩
    else readPlain inBraces least (c :: gap.onto text) .none (p.after c) cs

/-! ## Quoted scalars -/

/-- Read a scalar in single quotes from behind the first of them; a quote in it is written twice. -/
def readSingle (text : List Char) (gap : Gap) (p : Place) :
    List Char → Option (List Char × Cursor)
  | [] => none
  | '\'' :: '\'' :: cs =>
    if atAnyMark p ('\'' :: '\'' :: cs) then none
    else readSingle ('\'' :: gap.onto text) .none (p.skip 2) cs
  | c :: cs =>
    if isBreak c || isBlank c then readSingle text (gap.push c) (p.after c) cs
    else if atAnyMark p (c :: cs) then none
    else if c == '\'' then some ((gap.onto text).reverse, ⟨p.after c, cs⟩)
    else readSingle (c :: gap.onto text) .none (p.after c) cs

/-- The character that a letter behind a backslash stands for. -/
def escape? : Char → Option Char
  | '0' => some '\x00'
  | 'a' => some '\x07'
  | 'b' => some '\x08'
  | 't' => some '\t'
  | '\t' => some '\t'
  | 'n' => some '\n'
  | 'v' => some '\x0b'
  | 'f' => some '\x0c'
  | 'r' => some '\r'
  | 'e' => some '\x1b'
  | ' ' => some ' '
  | '"' => some '"'
  | '/' => some '/'
  | '\\' => some '\\'
  | 'N' => some '\u0085'
  | '_' => some '\u00a0'
  | 'L' => some '\u2028'
  | 'P' => some '\u2029'
  | _ => none

/-- The character of some hexadecimal digits. -/
def hexChar? (digits : List Char) : Option Char :=
  match Numeral.readDigits 0x10ffff .hexadecimal digits with
  | .ok n => if n.isValidChar then some (Char.ofNat n) else none
  | .error _ => none

/-- Read a scalar in double quotes from behind the first of them. A backslash begins an escape, and
    before a line break it joins the lines. -/
def readDouble (text : List Char) (gap : Gap) (p : Place) :
    List Char → Option (List Char × Cursor)
  | [] => none
  | '\\' :: 'x' :: a :: b :: cs =>
    (hexChar? [a, b]).bind fun c => readDouble (c :: gap.onto text) .none (p.skip 4) cs
  | '\\' :: 'u' :: a :: b :: c :: d :: cs =>
    (hexChar? [a, b, c, d]).bind fun e => readDouble (e :: gap.onto text) .none (p.skip 6) cs
  | '\\' :: 'U' :: a :: b :: c :: d :: e :: f :: g :: h :: cs =>
    (hexChar? [a, b, c, d, e, f, g, h]).bind fun i =>
      readDouble (i :: gap.onto text) .none (p.skip 10) cs
  | '\\' :: c :: cs =>
    if isBreak c then readDouble (gap.onto text) (.breaks true []) ((p.skip 1).after c) cs
    else (escape? c).bind fun e => readDouble (e :: gap.onto text) .none (p.skip 2) cs
  | c :: cs =>
    if isBreak c || isBlank c then readDouble text (gap.push c) (p.after c) cs
    else if atAnyMark p (c :: cs) then none
    else if c == '"' then some ((gap.onto text).reverse, ⟨p.after c, cs⟩)
    else readDouble (c :: gap.onto text) .none (p.after c) cs

/-! ## Blocks -/

/-- What a block keeps of the line breaks at its end. -/
inductive Chomping where
  | strip
  | clip
  | keep

/-- The head of a block: how its end is treated, and how far it is indented, if that is said. -/
structure BlockHead where
  chomping : Chomping
  indent : Option Nat

/-- Read a chomping mark. -/
def readChomping (cs : List Char) : Option Chomping :=
  match cs with
  | '+' :: _ => some .keep
  | '-' :: _ => some .strip
  | _ => none

/-- Read an indentation, which is not zero. -/
def readIndent (cs : List Char) : Option Nat :=
  match cs with
  | c :: _ => if '1' ≤ c && c ≤ '9' then digitValue? c else none
  | [] => none

/-- Read the head of a block to the end of its line. The marks stand in any order. -/
def readHead (s : Cursor) : Option (BlockHead × Cursor) :=
  let (chomping, indent, s) := match readChomping s.rest, readIndent s.rest with
    | some c, _ =>
      match readIndent (s.rest.drop 1) with
      | some n => (c, some n, s.skip 2)
      | none => (c, none, s.skip 1)
    | none, some n =>
      match readChomping (s.rest.drop 1) with
      | some c => (c, some n, s.skip 2)
      | none => (.clip, some n, s.skip 1)
    | none, none => (.clip, none, s)
  s.endLine?.map fun s => (⟨chomping, indent⟩, s)

/-- What has been read of a block: the column of its lines, once that is known, and the widest
    indentation met before; its text, the break of its last line, and the empty lines after that, all
    last character first; whether the last line began with a blank, and whether it still goes on. -/
structure Block where
  indent : Option Nat
  widest : Nat
  text : List Char
  lead : List Char
  trail : List Char
  blankFirst : Bool
  inLine : Bool

namespace Block

/-- Whether a place is still in the indentation of a line. -/
def inIndent (b : Block) (p : Place) : Bool :=
  b.indent.all (p.column < ·)

/-- The block when a line of it begins with this character: the breaks before the line are kept or
    folded. Lines that begin with a blank are not folded. -/
def beginLine (b : Block) (folds : Bool) (c : Char) : Block :=
  let lead := if folds && b.lead == ['\n'] && !b.blankFirst && !isBlank c then
      if b.trail.isEmpty then [' '] else []
    else b.lead
  { b with
    text := c :: (b.trail ++ lead ++ b.text)
    lead := [], trail := [], blankFirst := isBlank c, inLine := true }

/-- The text of a block whose end has been reached. -/
def finish (b : Block) (chomping : Chomping) : List Char :=
  match chomping with
  | .strip => b.text.reverse
  | .clip => (b.lead ++ b.text).reverse
  | .keep => (b.trail ++ b.lead ++ b.text).reverse

/-- Read the lines of a block. If the indentation was not said, that of its first line counts, or that
    of a wider empty line before it, and it is at least `least`. -/
def read (folds : Bool) (least : Nat) (b : Block) (p : Place) :
    List Char → Option (Block × Cursor)
  | [] => some (b, ⟨p, []⟩)
  | c :: cs =>
    if b.inLine then
      if isBreak c then
        read folds least { b with lead := [c], inLine := false } (p.after c) cs
      else read folds least { b with text := c :: b.text } (p.after c) cs
    else if c == ' ' && b.inIndent p then read folds least b (p.after c) cs
    else if c == '\t' && b.inIndent p then none
    else
      let widest := max b.widest p.column
      if isBreak c then
        read folds least { b with widest, trail := c :: b.trail } (p.after c) cs
      else
        let indent := b.indent.getD (max widest least)
        if p.column = indent then
          read folds least ({ b with widest, indent := some indent }.beginLine folds c)
            (p.after c) cs
        else some (b, ⟨p, c :: cs⟩)

end Block

/-- Read a block from behind the mark that announces it. `outer` is the column of the mapping around
    it. -/
def readBlock (folds : Bool) (outer : Option Nat) (s : Cursor) : Option (List Char × Cursor) :=
  (readHead s).bind fun (head, s) =>
    let indent := head.indent.map (outer.getD 0 + ·)
    (Block.read folds ((outer.map (· + 1)).getD 1) ⟨indent, 0, [], [], [], false, false⟩
      s.place s.rest).map fun (b, s) => (b.finish head.chomping, s)

end MacroAsm.Config
