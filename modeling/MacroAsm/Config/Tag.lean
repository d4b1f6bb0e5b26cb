import MacroAsm.Config.Cursor
import MacroAsm.Numeral

set_option autoImplicit false

/-! # Tags and directives

A tag in front of a scalar says of what kind it is. It is written in full, or as a handle and a
suffix, and directives at the start of a document say what the handles stand for. -/

namespace MacroAsm.Config

/-! ## Tags -/

/-- A tag as it is written. One that is written in full has an empty handle. -/
structure Tag where
  handle : List Char
  suffix : List Char
  deriving DecidableEq, Repr

/-- What a handle stands for. -/
structure Handle where
  name : List Char
  meaning : List Char

namespace Tag

/-- The handles that every document knows. -/
def knownHandles : List Handle :=
  [⟨"!".toList, "!".toList⟩, ⟨"!!".toList, "tag:yaml.org,2002:".toList⟩]

/-- The full text of a tag, if its handle is known. -/
def resolve? (handles : List Handle) (t : Tag) : Option (List Char) :=
  if t.handle.isEmpty then some t.suffix
  else ((handles ++ knownHandles).find? (·.name == t.handle)).map (·.meaning ++ t.suffix)

/-- The characters of tags. A tag written in full has some more. -/
def isTagChar (full : Bool) (c : Char) : Bool :=
  isNameChar c || ";/?:@&=+$.!~*'()".toList.contains c || (full && ",[]".toList.contains c)

/-- The octet of two hexadecimal digits. -/
def octet? (a b : Char) : Option Nat :=
  (Numeral.readDigits 255 .hexadecimal [a, b]).toOption

/-- How many octets follow the first one of a character. -/
def followers? (octet : Nat) : Option Nat :=
  if octet < 0x80 then some 0
  else if octet < 0xC0 then none
  else if octet < 0xE0 then some 1
  else if octet < 0xF0 then some 2
  else if octet < 0xF8 then some 3
  else none

/-- Read the characters of a tag. An octet is escaped by a percent sign; `left` more of them belong to
    the character before. No tag that means something here has characters of several octets, so these
    are all read as one. -/
def readUri (full : Bool) (text : List Char) (left : Nat) (p : Place) :
    List Char → Option (List Char × Cursor)
  | '%' :: a :: b :: cs =>
    (octet? a b).bind fun octet =>
      match left with
      | 0 => (followers? octet).bind fun n =>
        let c := if n = 0 then Char.ofNat octet else '\ufffd'
        readUri full (c :: text) n (p.skip 3) cs
      | n + 1 =>
        if octet / 0x40 = 2 then readUri full text n (p.skip 3) cs else none
  | c :: cs =>
    if left != 0 || c == '%' then none
    else if isTagChar full c then readUri full (c :: text) 0 (p.after c) cs
    else some (text.reverse, ⟨p, c :: cs⟩)
  | [] => if left = 0 then some (text.reverse, ⟨p, []⟩) else none

/-- Read a text of a tag that is not empty. -/
def readSuffix (full : Bool) (s : Cursor) : Option (List Char × Cursor) :=
  (readUri full [] 0 s.place s.rest).filter fun read => !read.1.isEmpty

/-- Read a tag that is written in full, from behind its opening bracket. -/
def readFull (s : Cursor) : Option (Tag × Cursor) :=
  (readSuffix true s).bind fun (text, s) =>
    if s.rest.head? == some '>' then some (⟨[], text⟩, s.next) else none

/-- Read a tag with a handle, from behind its first mark. A name with no second mark behind it is part
    of the suffix, and a mark alone is a tag of its own. -/
def readShort (s : Cursor) : Option (Tag × Cursor) :=
  let (name, behind) := s.run isNameChar
  if behind.rest.head? == some '!' then
    (readSuffix false behind.next).map fun (suffix, s) => (⟨'!' :: name ++ ['!'], suffix⟩, s)
  else
    (readUri false name.reverse 0 behind.place behind.rest).map fun (suffix, s) =>
      (if suffix.isEmpty then ⟨[], ['!']⟩ else ⟨['!'], suffix⟩, s)

/-- Read a tag from its first mark. A gap must follow, or a comma in braces. -/
def read (inBraces : Bool) (s : Cursor) : Option (Tag × Cursor) :=
  let tag := if s.next.rest.head? == some '<' then readFull (s.skip 2) else readShort s.next
  tag.filter fun (_, s) => atGap s.rest || (inBraces && s.rest.head? == some ',')

end Tag

/-! ## Directives -/

/-- Directives. -/
inductive Directive where
  | version (major minor : List Char)
  | handle (h : Handle)

namespace Directive

/-- Read a part of a version: at most nine digits. -/
def readPart (s : Cursor) : Option (List Char × Cursor) :=
  some (s.run Char.isDigit) |>.filter fun (digits, _) => !digits.isEmpty && digits.length ≤ 9

/-- Read a version. -/
def readVersion (s : Cursor) : Option (Directive × Cursor) :=
  (readPart s).bind fun (major, s) =>
    if s.rest.head? == some '.' then
      (readPart s.next).map fun (minor, s) => (.version major minor, s)
    else none

/-- Read the name of a handle. -/
def readName (s : Cursor) : Option (List Char × Cursor) :=
  if s.rest.head? == some '!' then
    let (name, s) := s.next.run isNameChar
    if s.rest.head? == some '!' then some ('!' :: name ++ ['!'], s.next)
    else if name.isEmpty then some (['!'], s)
    else none
  else none

/-- Read a handle and what it stands for. -/
def readHandle (s : Cursor) : Option (Directive × Cursor) :=
  (readName s).bind fun (name, s) =>
    if s.rest.head?.any isBlank then
      (Tag.readSuffix true (s.skipWhile isBlank)).bind fun (meaning, s) =>
        if atGap s.rest then some (.handle ⟨name, meaning⟩, s) else none
    else none

/-- Read a directive to the end of its line, from behind its mark. -/
def read (s : Cursor) : Option (Directive × Cursor) :=
  let (name, s) := s.run isNameChar
  if !atGap s.rest then none
  else
    let s := s.skipWhile isBlank
    let directive := match String.ofList name with
      | "YAML" => readVersion s
      | "TAG" => readHandle s
      | _ => none
    directive.bind fun (d, s) => s.endLine?.map fun s => (d, s)

/-- Whether a part of a version is a number. -/
def isNumber (n : Nat) (part : List Char) : Bool :=
  (Numeral.readDigits n .decimal part).toOption == some n

/-- Whether a document may have this version. -/
def isKnownVersion (major minor : List Char) : Bool :=
  isNumber 1 major && (isNumber 1 minor || isNumber 2 minor)

/-- The handles that some directives name. There is at most one version among them, and no handle is
    named twice. -/
def handles? (ds : List Directive) : Option (List Handle) :=
  let versions := ds.filterMap fun
    | .version major minor => some (isKnownVersion major minor)
    | .handle _ => none
  let handles := ds.filterMap fun
    | .handle h => some h
    | .version _ _ => none
  if versions.length ≤ 1 && versions.all id && decide (handles.map Handle.name).Nodup then some handles
  else none

end Directive

end MacroAsm.Config
