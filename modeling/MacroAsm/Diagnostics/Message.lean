import MacroAsm.Diagnostics.Level
import MacroAsm.Diagnostics.Style
import MacroAsm.Text.Column

set_option autoImplicit false

/-! # Messages

A message says what was found, how grave it is and where, and may carry notes. It is written on one
line for a log, or over several with the source line for a terminal. -/

namespace MacroAsm

/-! ## Parts of a message -/

/-- A line of a source file: its file, its number from one, and the line as it stands there. -/
structure Position where
  file : String
  line : Nat
  raw : String
  deriving DecidableEq, Repr

/-- How grave a message is. -/
inductive Severity where
  | info
  | warning
  | error
  deriving DecidableEq, Repr

/-- The level of a severity. -/
def Severity.level : Severity → Level
  | .info => .info
  | .warning => .warning
  | .error => .error

/-- What a message adds, perhaps about another place. -/
structure Note where
  text : String
  position : Option Position
  deriving DecidableEq, Repr

/-- A message about the source. -/
structure Message where
  severity : Severity
  text : String
  position : Option Position
  notes : List Note
  deriving DecidableEq, Repr

/-! ## Writing -/

namespace Position

/-- A place as file and line number. -/
def written (p : Position) : String :=
  s!"{p.file}:{p.line}"

/-- A place with its source line, for a terminal. -/
def shown (p : Position) : String :=
  let blue (s : String) : String := Style.apply [.blue] s
  let arrow := blue "-->"
  let bar := blue "|"
  let gutter := blue (Text.padStart 4 (toString p.line) ++ " |")
  let place := Style.apply [.underline] p.written
  s!"     {arrow} {place}\n      {bar}\n {gutter} {p.raw}\n      {bar}\n"

end Position

namespace Message

/-- The level of a message. -/
def level (m : Message) : Level :=
  m.severity.level

/-- A message of a severity about a place. -/
def about (severity : Severity) (text : String) (p : Position) : Message :=
  ⟨severity, text, some p, []⟩

/-- A message with one more note. -/
def withNote (m : Message) (text : String) (p : Option Position) : Message :=
  { m with notes := m.notes ++ [⟨text, p⟩] }

/-- A message on one line. -/
def written (m : Message) : String :=
  match m.position with
  | some p => s!"[{m.level.label}] {m.text} at {p.written}"
  | none => s!"[{m.level.label}] {m.text}"

/-- The coloured word with which a message begins on a terminal. -/
def heading : Severity → String
  | .error => Style.apply [.red, .bold] "error"
  | .warning => Style.apply [.yellow, .bold] "warn"
  | .info => Style.apply [.cyan, .bold] "info"

/-- A heading with its text and its place, for a terminal. -/
def shownPart (head text : String) (p : Option Position) : String :=
  s!"{head}: {text}\n" ++ (p.map Position.shown).getD ""

/-- A message with its notes, for a terminal. -/
def shown (m : Message) : String :=
  shownPart (heading m.severity) m.text m.position ++
    String.join (m.notes.map fun n =>
      shownPart (Style.apply [.green, .bold] "note") n.text n.position)

end Message

end MacroAsm
