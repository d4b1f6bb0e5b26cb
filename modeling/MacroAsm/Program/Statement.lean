import MacroAsm.Isa.Instruction

set_option autoImplicit false

/-! # Statements

What one line of code says: nothing, a label (`name:`) for the place in the program, or an
instruction. -/

namespace MacroAsm

/-- A line of code that says something. -/
inductive Statement where
  | label (name : String)
  | instruction (i : Instruction)
  deriving DecidableEq, Repr

/-- Why a line is no statement. -/
inductive StatementError where
  | badLabel (name : String)
  | instruction (e : InstructionError)
  deriving DecidableEq, Repr

/-- The wording of an error. -/
def StatementError.message : StatementError → String
  | .badLabel name => s!"Invalid label name `{name}`"
  | .instruction e => e.message

namespace Statement

/-- Read a line of code; a line of blanks says nothing. -/
def parse (code : String) : Except StatementError (Option Statement) :=
  let cs := Text.trim code.toList
  match cs.getLast? with
  | none => .ok none
  | some ':' =>
    let name := Text.trim cs.dropLast
    if isIdentChars name then .ok (some (.label (String.ofList name)))
    else .error (.badLabel (String.ofList name))
  | some _ =>
    match Instruction.parse code with
    | .ok i => .ok (some (.instruction i))
    | .error e => .error (.instruction e)

/-- A statement as it is written. -/
def written : Statement → String
  | .label name => name ++ ":"
  | .instruction i => i.written

end Statement

end MacroAsm
