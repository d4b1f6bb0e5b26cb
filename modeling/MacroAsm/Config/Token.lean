import MacroAsm.Config.Scalar
import MacroAsm.Config.Tag

set_option autoImplicit false

/-! # Tokens of configuration files

A text is cut into tokens before its mapping is read. What makes a text a mapping shows only at a
colon: the scalar before it was a key. So the tokens since the last place where a key could have begun
are held back, and the colon puts the token of a key in front of them. Such a key stands on one line
and reaches no further than 1024 characters.

In a mapping on lines, indentation is what counts: the column of the first key is that of all keys,
and a token before that column ends the mapping. Nothing but scalars is held in a mapping here, so a
second mapping is refused, and so are sequences. -/

namespace MacroAsm.Config

/-- Tokens. A mapping on lines has a start and an end, as has one in braces. -/
inductive Token where
  | directive (d : Directive)
  | documentStart
  | documentEnd
  | mappingStart
  | mappingEnd
  | openBrace
  | closeBrace
  | comma
  | key
  | value
  | anchor (name : List Char)
  | alias (name : List Char)
  | tag (t : Tag)
  | scalar (s : Scalar)

/-- A place where a key may have begun. A required one stands where nothing but a key may stand. -/
structure KeyStart where
  place : Place
  required : Bool

/-- How far a text has been cut: the tokens before the last possible key and those since, last one
    first; the column of the keys of the mapping on lines that is being read; whether braces are open;
    and whether a key may begin at the next token. -/
structure Scanner where
  cursor : Cursor
  before : List Token
  since : List Token
  keyStart : Option KeyStart
  indent : Option Nat
  inBraces : Bool
  keyAllowed : Bool

namespace Scanner

/-- The scanner at the beginning of a text. -/
def ofChars (cs : List Char) : Scanner :=
  ⟨⟨.start, cs⟩, [], [], none, none, false, true⟩

/-- A scanner with one more token, behind which the cursor is. -/
def push (s : Scanner) (t : Token) (cursor : Cursor) : Scanner :=
  { s with since := t :: s.since, cursor }

/-! ## Up to the next token -/

/-- Pass blanks, comments and line breaks. A tab is no blank where a key may begin on a line of its
    own, since it would hide the indentation. A line break allows a key, except in braces. A byte order
    mark may begin a line. -/
def skipGap (inBraces keyAllowed inComment : Bool) (p : Place) : List Char → Bool × Cursor
  | [] => (keyAllowed, ⟨p, []⟩)
  | c :: cs =>
    if isBreak c then skipGap inBraces (keyAllowed || !inBraces) false (p.after c) cs
    else if inComment then skipGap inBraces keyAllowed true (p.after c) cs
    else if c == '#' then skipGap inBraces keyAllowed true (p.after c) cs
    else if c == ' ' || (c == '\t' && (inBraces || !keyAllowed)) ||
        (c == '\ufeff' && p.column == 0) then
      skipGap inBraces keyAllowed false (p.after c) cs
    else (keyAllowed, ⟨p, c :: cs⟩)

/-- Go to the next token. -/
def toToken (s : Scanner) : Scanner :=
  let (keyAllowed, cursor) :=
    skipGap s.inBraces s.keyAllowed false s.cursor.place s.cursor.rest
  { s with cursor, keyAllowed }

/-! ## Keys -/

/-- Give up the possible key, which must not be required. -/
def dropKey (s : Scanner) : Option Scanner :=
  if s.keyStart.any (·.required) then none else some { s with keyStart := none }

/-- Whether a key that began at one place can still end at another. -/
def reaches (start p : Place) : Bool :=
  start.line == p.line && p.index ≤ start.index + 1024

/-- Give up the possible key if it is too far away. -/
def dropFarKey (s : Scanner) : Option Scanner :=
  match s.keyStart with
  | some k => if reaches k.place s.cursor.place then some s else s.dropKey
  | none => some s

/-- Take the next token for the beginning of a possible key, if one is allowed here. -/
def beginKey (s : Scanner) : Option Scanner :=
  if s.keyAllowed then
    s.dropKey.map fun s =>
      let place := s.cursor.place
      let required := !s.inBraces && s.indent == some place.column
      { s with keyStart := some ⟨place, required⟩, before := s.since ++ s.before, since := [] }
  else some s

/-! ## Mappings on lines -/

/-- Begin a mapping with a key at a column, or go on in the one that is open. The token of its start is
    put in front of the possible key. -/
def enter (s : Scanner) (column : Nat) : Option Scanner :=
  if s.inBraces then some s
  else match s.indent with
    | none => some { s with indent := some column, before := .mappingStart :: s.before }
    | some indent => if indent < column then none else some s

/-- End the mapping on lines that is open. -/
def leave (s : Scanner) : Scanner :=
  match s.indent with
  | none => s
  | some _ => { s with indent := none, since := .mappingEnd :: s.since }

/-- End the mapping on lines whose keys begin behind this column. -/
def leaveAt (s : Scanner) : Scanner :=
  if !s.inBraces && s.indent.any (s.cursor.place.column < ·) then s.leave else s

/-- A scanner without a possible key, and with all tokens taken for those before the next one. -/
def settle (s : Scanner) : Option Scanner :=
  s.dropKey.map fun s => { s with before := s.since ++ s.before, since := [] }

/-! ## One token -/

/-- Read a mark of one character that says where keys may begin. -/
def mark (s : Scanner) (t : Token) (keyAllowed : Bool) : Scanner :=
  { s.push t s.cursor.next with keyAllowed }

/-- Read a token at the beginning of a line that belongs to no mapping. -/
def outside (s : Scanner) (t : Token) (cursor : Cursor) : Option Scanner :=
  s.leave.dropKey.map fun s => { s.push t cursor with keyAllowed := false }

/-- Read the opening brace. -/
def openBrace (s : Scanner) : Option Scanner :=
  if s.inBraces then none
  else s.dropKey.map fun s => { s.mark .openBrace true with inBraces := true }

/-- Read the closing brace. -/
def closeBrace (s : Scanner) : Option Scanner :=
  s.dropKey.map fun s => { s.mark .closeBrace false with inBraces := false }

/-- Read a comma. -/
def comma (s : Scanner) : Option Scanner :=
  s.dropKey.map fun s => s.mark .comma true

/-- Read the mark of a key that is said to be one. -/
def explicitKey (s : Scanner) : Option Scanner :=
  if !s.inBraces && !s.keyAllowed then none
  else
    s.settle.bind fun s =>
      (s.enter s.cursor.place.column).map fun s => s.mark .key (!s.inBraces)

/-- Read the mark of a value: the possible key is a key. Without one, the key was said to be one, or is
    missing. -/
def value (s : Scanner) : Option Scanner :=
  match s.keyStart with
  | some k =>
    (s.enter k.place.column).map fun s =>
      { s.mark .value false with before := .key :: s.before, keyStart := none }
  | none =>
    if !s.inBraces && !s.keyAllowed then none
    else
      s.settle.bind fun s =>
        (s.enter s.cursor.place.column).map fun s => s.mark .value (!s.inBraces)

/-- Read a token that may begin a key. -/
def word (s : Scanner) (read : Option (Token × Cursor)) : Option Scanner :=
  s.beginKey.bind fun s =>
    read.map fun (t, cursor) => { s.push t cursor with keyAllowed := false }

/-- Read a name, of an anchor or an alias, from its mark. -/
def readName (s : Cursor) : Option (List Char × Cursor) :=
  let (name, behind) := s.next.run isNameChar
  if !name.isEmpty && (atGap behind.rest || behind.rest.head?.any "?:,]\x7d%@`".toList.contains) then
    some (name, behind)
  else none

/-- Read a quoted scalar with a reader of such scalars. -/
def quoted (s : Scanner)
    (read : List Char → Gap → Place → List Char → Option (List Char × Cursor)) : Option Scanner :=
  let inside := s.cursor.next
  s.word ((read [] .none inside.place inside.rest).map fun (text, behind) =>
    (.scalar ⟨text, .quoted⟩, behind))

/-- Read a block. -/
def block (s : Scanner) (folds : Bool) : Option Scanner :=
  s.dropKey.bind fun s =>
    (readBlock folds s.indent s.cursor.next).map fun (text, behind) =>
      { s.push (.scalar ⟨text, if folds then .folded else .literal⟩) behind with keyAllowed := true }

/-- Read a plain scalar. A key may begin behind it if it is the last of its line. -/
def plain (s : Scanner) : Option Scanner :=
  s.beginKey.bind fun s =>
    (readPlain s.inBraces ((s.indent.map (· + 1)).getD 0) [] .none s.cursor.place
      s.cursor.rest).map fun read =>
        { s.push (.scalar ⟨read.text, .plain⟩) read.behind with keyAllowed := read.broken }

/-- Read the token at the cursor. -/
def readToken (s : Scanner) : Option Scanner :=
  let cursor := s.cursor
  match cursor.rest with
  | [] => none
  | c :: cs =>
    if c == '%' && cursor.place.column == 0 then
      (Directive.read cursor.next).bind fun (d, behind) => s.outside (.directive d) behind
    else if atMark startMark cursor.place cursor.rest then s.outside .documentStart (cursor.skip 3)
    else if atMark endMark cursor.place cursor.rest then s.outside .documentEnd (cursor.skip 3)
    else if c == '\x7b' then s.openBrace
    else if c == '\x7d' then s.closeBrace
    else if c == ',' then s.comma
    else if c == '?' && (s.inBraces || atGap cs) then s.explicitKey
    else if c == ':' && (s.inBraces || atGap cs) then s.value
    else if c == '*' then s.word ((readName cursor).map fun (name, s) => (.alias name, s))
    else if c == '&' then s.word ((readName cursor).map fun (name, s) => (.anchor name, s))
    else if c == '!' then s.word ((Tag.read s.inBraces cursor).map fun (t, s) => (.tag t, s))
    else if c == '|' && !s.inBraces then s.block false
    else if c == '>' && !s.inBraces then s.block true
    else if c == '\'' then s.quoted readSingle
    else if c == '"' then s.quoted readDouble
    else if plainStart cursor.rest then s.plain
    else none

/-! ## All tokens -/

/-- The tokens of what is left of a text. Each takes a character at least, so `fuel` may be any number
    greater than that of the characters left. -/
def tokens : Nat → Scanner → Option (List Token)
  | 0, _ => none
  | fuel + 1, s =>
    s.toToken.dropFarKey.bind fun s =>
      if s.cursor.rest.isEmpty then
        s.leave.dropKey.map fun s => (s.since ++ s.before).reverse
      else s.leaveAt.readToken.bind (tokens fuel)

end Scanner

/-- The tokens of a text. -/
def Token.ofChars? (cs : List Char) : Option (List Token) :=
  Scanner.tokens (cs.length + 1) (Scanner.ofChars cs)

end MacroAsm.Config
