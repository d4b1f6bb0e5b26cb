import MacroAsm.Diagnostics.Message
import MacroAsm.Macros.Matching
import MacroAsm.Macros.Size
import MacroAsm.Registry

set_option autoImplicit false

/-! # Macros

A plain macro stands for its top lines. A macro that wraps a block has bottom lines too: they take
the place of the closer, a line that ends the block which the use begins. -/

namespace MacroAsm

/-- A macro. The closer is missing where none was written. -/
structure Macro where
  opener : Opener
  closer : Option String
  top : List String
  bottom : List String
  wraps : Bool
  position : Option Position
  deriving DecidableEq, Repr

/-- Macros by the text of their openers, first defined first. -/
abbrev MacroTable := Registry Macro

/-- Why there is no macro of some parts. -/
inductive MacroError where
  | unnamed
  | kind (e : OperandKind.Unknown)
  | tooLarge (name : String)
  deriving DecidableEq, Repr

/-- The wording of an error. -/
def MacroError.message : MacroError → String
  | .unnamed => "Macro without a name"
  | .kind e => e.message
  | .tooLarge name =>
    s!"Cannot build matcher for macro `{name}`: Compiled regex exceeds size limit of " ++
      s!"{MatcherSize.limit} bytes."

namespace Macro

/-- The text of a macro's opener, under which it is known. -/
def name (m : Macro) : String :=
  m.opener.written

/-- The kinds of a macro's operands. -/
def kinds (m : Macro) : List OperandKind :=
  m.opener.kinds

/-- A closer in normal spacing, if anything is left of it. -/
def closerOf (closer : String) : Option String :=
  match Text.normalize closer.toList with
  | [] => none
  | cs => some (String.ofList cs)

/-- The macro of some parts. -/
def ofParts (opener : String) (closer : Option String) (top bottom : List String) (wraps : Bool) :
    Except MacroError Macro :=
  match Text.normalize opener.toList with
  | [] => .error .unnamed
  | cs =>
    match Opener.ofChars cs with
    | .error e => .error (.kind e)
    | .ok o =>
      if (MatcherSize.ofOpener o).fits then .ok ⟨o, closer.bind closerOf, top, bottom, wraps, none⟩
      else .error (.tooLarge (String.ofList cs))

theorem ofParts_eq_ok {opener : String} {closer : Option String} {top bottom : List String}
    {wraps : Bool} {m : Macro} (h : ofParts opener closer top bottom wraps = .ok m) :
    Text.normalize opener.toList ≠ [] ∧ ∃ o, Opener.ofChars (Text.normalize opener.toList) = .ok o ∧
      m = ⟨o, closer.bind closerOf, top, bottom, wraps, none⟩ := by
  unfold ofParts at h
  split at h
  · cases h
  · next hname =>
    split at h
    · cases h
    · next o ho =>
      split at h
      · exact ⟨fun hnil => hname hnil, o, ho, (Except.ok.inj h).symm⟩
      · cases h

/-- Whether two macros are the same, wherever they were defined. -/
def same (m n : Macro) : Bool :=
  { m with position := none } == { n with position := none }

/-- The operands of a line of code that is a use of a macro. -/
def captures? (m : Macro) (code : String) : Option (List String) :=
  m.opener.match? code.toList

end Macro

/-- The first of some macros that a line of code uses, with the operands of the use. -/
def Macro.use? (macros : List Macro) (code : String) : Option (Macro × List String) :=
  let cs := Text.trim code.toList
  macros.findSome? fun m =>
    (m.opener.matchTrimmed? cs).map fun operands => (m, operands.map String.ofList)

end MacroAsm
