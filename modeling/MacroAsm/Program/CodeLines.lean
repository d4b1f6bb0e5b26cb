import MacroAsm.Memory.Layout

set_option autoImplicit false

/-! # Code lines

The lines of a file that become part of the program: all but directives, the lines of macros and the
declarations of memory layouts. -/

namespace MacroAsm

/-- What the lines before have opened, and the code lines among them. -/
structure CodeLines where
  inMacro : Bool
  inLayout : Bool
  lines : Array Line

namespace CodeLines

/-- Whether a layout line is followed by declarations. -/
def opensBlock (words : String) : Bool :=
  match LayoutKind.parse words with
  | .ok kind => kind.hasBlock
  | .error _ => false

/-- Look at one line. -/
def step (s : CodeLines) (l : Line) : CodeLines :=
  match l.directive? with
  | none => if s.inMacro || s.inLayout then s else { s with lines := s.lines.push l }
  | some d =>
    if d.name = "macro" then { s with inMacro := true }
    else if d.name = "endmacro" then { s with inMacro := false }
    else if d.name = Layout.directiveName && !s.inMacro then
      { s with inLayout := opensBlock d.rest }
    else if d.name = Layout.endName then { s with inLayout := false }
    else s

/-- The code lines among some lines. -/
def ofLines (lines : List Line) : List Line :=
  (lines.foldl step ⟨false, false, #[]⟩).lines.toList

end CodeLines

end MacroAsm
