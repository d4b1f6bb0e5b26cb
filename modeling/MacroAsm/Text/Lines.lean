set_option autoImplicit false

/-! # Cutting a text into lines

A line ends at a line feed, and one carriage return right before that line feed belongs to the line
end. A text that ends with a line feed has no empty line after it. -/

namespace MacroAsm.Text

/-- Lines of the rest of a text, and whether that rest begins with a line feed. -/
structure LineCut where
  lines : List (List Char)
  atFeed : Bool

/-- Put one more character in front of a text that is already cut into lines. -/
def LineCut.step (c : Char) (cut : LineCut) : LineCut :=
  if c = '\n' then ⟨[] :: cut.lines, true⟩
  else if c = '\r' && cut.atFeed then ⟨cut.lines, false⟩
  else match cut.lines with
    | [] => ⟨[[c]], false⟩
    | l :: ls => ⟨(c :: l) :: ls, false⟩

/-- The lines of a text, without their ends. -/
def lines (cs : List Char) : List (List Char) :=
  (cs.foldr LineCut.step ⟨[], false⟩).lines

end MacroAsm.Text
