import MacroAsm.Diagnostics.Message
import MacroAsm.Failure
import MacroAsm.Text.Case
import MacroAsm.Text.Lines

set_option autoImplicit false

/-! # Source lines

A source line is cut at its first `//` into code and comment. Code is compared in lower case, and
code that begins with `#` is a directive. Lines remember where they stand, so that everything made
of them can be reported there. -/

namespace MacroAsm

/-- A line of source, with its file and its index from zero. -/
structure Line where
  file : String
  index : Nat
  raw : String
  code : String
  comment : Option String
  deriving DecidableEq, Repr

/-- The name behind a `#` and the text behind that name. -/
structure Directive where
  name : String
  rest : String
  deriving DecidableEq, Repr

namespace Line

/-! ## Reading -/

/-- Search the rest of a line for the start of its comment; `code` holds the characters before it,
    last one first. -/
def cutFrom (code : List Char) : List Char → List Char × Option (List Char)
  | [] => (code.reverse, none)
  | '/' :: '/' :: comment => (code.reverse, some comment)
  | c :: cs => cutFrom (c :: code) cs

/-- Code and comment of a line, cut at the first `//`. -/
def cutComment (cs : List Char) : List Char × Option (List Char) :=
  cutFrom [] cs

/-- Read one line of a file. -/
def ofRaw (file : String) (index : Nat) (raw : String) : Line :=
  let (code, comment) := cutComment raw.toList
  { file, index, raw,
    code := String.ofList (Text.lower (Text.trim code)),
    comment := comment.map fun c => String.ofList (Text.trim c) }

/-- The lines of a text. -/
def ofText (file text : String) : List Line :=
  (Text.lines text.toList).zipIdx.map fun l => ofRaw file l.2 (String.ofList l.1)

/-- The lines of a file. -/
def load (t : FileTree) (path : String) : Except Failure (List Line) :=
  match t.lookup path with
  | .error e => .error (.cannotOpen path e)
  | .ok (_, .directory) => .error (.cannotRead path .isDirectory)
  | .ok (_, .file none) => .error (.cannotRead path .notText)
  | .ok (_, .file (some text)) => .ok (ofText path text)

/-! ## Parts -/

/-- The number of a line, from one. -/
def number (l : Line) : Nat :=
  l.index + 1

/-- Where a line stands. -/
def position (l : Line) : Position :=
  ⟨l.file, l.number, l.raw⟩

/-- A line with other code, written in place of this one. -/
def withCode (l : Line) (code : String) : Line :=
  { l with code, comment := none }

/-- The directive on a line, if its code begins with `#`. -/
def directive? (l : Line) : Option Directive :=
  match l.code.toList with
  | '#' :: cs =>
    let body := Text.trimStart cs
    match Text.splitAtBlank body with
    | some (name, rest) => some ⟨String.ofList name, String.ofList (Text.trim rest)⟩
    | none => some ⟨String.ofList body, ""⟩
  | _ => none

/-- Whether a line is a directive of some name. -/
def isDirective (l : Line) (name : String) : Bool :=
  l.directive?.any fun d => d.name == name

end Line

end MacroAsm
