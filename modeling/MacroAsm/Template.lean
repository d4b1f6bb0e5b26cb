import MacroAsm.Options
import MacroAsm.Text.Cut

set_option autoImplicit false

/-! # Templates

A template is a text with places `%name` that are filled in one pass: three sizes of the machine and
the code. Names that mean nothing stay as they are. Every further line of an inserted text is indented
like the line of the template that it is inserted in. A template without a place for the code is
refused, since it would lose the program. -/

namespace MacroAsm

/-- What the places of a template are filled with. -/
structure TemplateValues where
  memorySize : Nat
  stackSize : Nat
  registerCount : Nat
  code : String
  deriving DecidableEq, Repr

namespace TemplateValues

/-- The values for some options and code. -/
def ofOptions (o : Options) (code : String) : TemplateValues :=
  ⟨o.memorySize, o.stackSize, o.registerCount, code⟩

/-- The value of a name, if the name means something. -/
def find? (v : TemplateValues) (name : String) : Option String :=
  if name = "memory_size" then some (toString v.memorySize)
  else if name = "stack_size" then some (toString v.stackSize)
  else if name = "register_count" then some (toString v.registerCount)
  else if name = "code" then some v.code
  else none

end TemplateValues

/-- A template that has a place for the code. -/
structure Template where
  name : String
  text : String
  deriving DecidableEq, Repr

namespace Template

/-! ## Places -/

/-- Whether a name may have a character. -/
def isNameChar (c : Char) : Bool :=
  ('a' ≤ c && c ≤ 'z') || c == '_'

/-- A text cut at its places. -/
def cut (cs : List Char) : Text.Cut (List Char) :=
  Text.Cut.ofChars '%' (Text.readRun? isNameChar) cs

/-- Whether a text has a place for the code. -/
def hasCode (text : String) : Bool :=
  (cut text.toList).tokens.any fun name => name == ['c', 'o', 'd', 'e']

/-- The template of a text. -/
def ofText (name text : String) : Except Failure Template :=
  if hasCode text then .ok ⟨name, text⟩ else .error (.templateWithoutCode name)

/-! ## Rendering -/

/-- A text with an indentation behind each of its line ends. -/
def indented (indent value : String) : String :=
  String.intercalate ("\n" ++ indent) ((value.toList.splitOn '\n').map String.ofList)

theorem intercalate_splitOn (indent cs : List Char) :
    List.intercalate ('\n' :: indent) (cs.splitOn '\n') =
      cs.flatMap fun c => if c = '\n' then '\n' :: indent else [c] := by
  induction cs with
  | nil => simp
  | cons c cs ih =>
    rw [List.splitOn_cons_eq_if_modifyHead, List.flatMap_cons, ← ih]
    obtain ⟨p, ps, hp⟩ := List.exists_cons_of_ne_nil (List.splitOn_ne_nil '\n' cs)
    by_cases h : c = '\n'
    · simp [h, hp]
    · cases ps <;> simp [h, hp]

theorem toList_indented (indent value : String) :
    (indented indent value).toList =
      value.toList.flatMap fun c => if c = '\n' then '\n' :: indent.toList else [c] := by
  simp [indented, ← intercalate_splitOn, Function.comp_def]

/-- What fills a place on a line with some indentation. -/
def filling (v : TemplateValues) (indent : String) (name : List Char) : String :=
  match v.find? (String.ofList name) with
  | some value => indented indent value
  | none => String.ofList ('%' :: name)

/-- The spaces and tabs that a line begins with. -/
def indentOf (line : List Char) : String :=
  String.ofList (line.takeWhile fun c => c == ' ' || c == '\t')

/-- Fill the places of one line. -/
def renderLine (v : TemplateValues) (line : List Char) : String :=
  (cut line).fillText (filling v (indentOf line))

/-- Fill the places of a template. -/
def render (t : Template) (v : TemplateValues) : String :=
  String.intercalate "\n" ((t.text.toList.splitOn '\n').map (renderLine v))

end Template

end MacroAsm
