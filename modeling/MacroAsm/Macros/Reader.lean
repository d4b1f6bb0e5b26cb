import MacroAsm.Diagnostics.Report
import MacroAsm.Macros.Definition
import MacroAsm.Source.Line

set_option autoImplicit false

/-! # Reading macros

A macro is written between `#macro opener` and `#endmacro closer`. A line `...` between them makes it
wrap a block, and separates its top from its bottom. -/

namespace MacroAsm

/-- A macro that is being read: its opener as written, the line it begins on, and its lines so far,
    last one first. -/
structure OpenMacro where
  opener : String
  start : Line
  top : List String
  bottom : List String
  wraps : Bool

/-- The state of reading: macros so far, the one being read, and what was reported. -/
structure MacroReader where
  table : MacroTable
  current : Option OpenMacro
  report : Report

namespace MacroReader

/-! ## Messages -/

/-- A macro ends that did not begin. -/
def strayEndMessage (l : Line) : Message :=
  .about .error "#endmacro without #macro" l.position

/-- A macro begins inside another. -/
def nestedMessage (l : Line) : Message :=
  .about .error "Nested #macro is not allowed, expected #endmacro first" l.position

/-- The two parts of a macro are separated twice. -/
def secondDotsMessage (l : Line) : Message :=
  .about .error "Macro has more than one `...`" l.position

/-- A macro does not end. -/
def unendedMessage (m : OpenMacro) : Message :=
  .about .error s!"Expected #endmacro after #macro `{m.opener}`" m.start.position

/-- A macro that wraps a block has no closer. -/
def noCloserMessage (l : Line) : Message :=
  .about .error
    "Complex macros (macros using `...`) need a closing expression after #endmacro" l.position

/-- A macro was defined already. -/
def redefinedMessage (name : String) (start : Line) (previous : Macro) : Message :=
  (Message.about .warning s!"Re-defined macro: `{name}`" start.position).withNote
    "Already defined here. The later definition is used." previous.position

/-! ## Reading -/

/-- A reader with one more message. -/
def addMessage (r : MacroReader) (m : Message) : MacroReader :=
  { r with report := r.report.push m }

/-- A macro with one more line of code. -/
def OpenMacro.addCode (m : OpenMacro) (code : String) : OpenMacro :=
  if m.wraps then { m with bottom := code :: m.bottom } else { m with top := code :: m.top }

/-- Enter a macro in the table, where the later of two definitions counts. -/
def define (r : MacroReader) (start : Line) (m : Macro) : MacroReader :=
  let r' := match r.table.find? m.name with
    | some previous => r.addMessage (redefinedMessage m.name start previous)
    | none => r
  { r' with table := r.table.insert m.name m }

/-- End the macro that is being read on a line with a closer, which may be empty. -/
def finish (r : MacroReader) (m : OpenMacro) (closer : String) (l : Line) : MacroReader :=
  let r := { r with current := none }
  if m.wraps && closer.isEmpty then r.addMessage (noCloserMessage l)
  else
    match Macro.ofParts m.opener (if closer.isEmpty then none else some closer)
        m.top.reverse m.bottom.reverse m.wraps with
    | .error e => r.addMessage (.about .error e.message m.start.position)
    | .ok mac => r.define m.start { mac with position := some m.start.position }

/-- Read a line inside a macro that neither begins nor ends one. -/
def addLine (r : MacroReader) (m : OpenMacro) (l : Line) : MacroReader :=
  if l.code = "..." then
    let r := if m.wraps then r.addMessage (secondDotsMessage l) else r
    { r with current := some { m with wraps := true } }
  else if l.code.isEmpty then r
  else { r with current := some (OpenMacro.addCode m l.code) }

/-- Read one line. Outside a macro only the lines that begin or end one count. -/
def step (r : MacroReader) (l : Line) : MacroReader :=
  match r.current, l.directive? with
  | none, some ⟨"macro", opener⟩ => { r with current := some ⟨opener, l, [], [], false⟩ }
  | none, some ⟨"endmacro", _⟩ => r.addMessage (strayEndMessage l)
  | none, _ => r
  | some _, some ⟨"macro", _⟩ => r.addMessage (nestedMessage l)
  | some m, some ⟨"endmacro", closer⟩ => r.finish m closer l
  | some m, _ => r.addLine m l

/-- What is left to say at the end of a file. -/
def close (r : MacroReader) : MacroReader :=
  match r.current with
  | some m => r.addMessage (unendedMessage m)
  | none => r

end MacroReader

/-- Enter the macros of a file in a table; the report is about this file alone. -/
def MacroTable.load (table : MacroTable) (lines : List Line) : MacroTable × Report :=
  let r := (lines.foldl MacroReader.step ⟨table, none, .empty⟩).close
  (r.table, r.report)

end MacroAsm
