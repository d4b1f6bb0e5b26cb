import MacroAsm.Diagnostics.Report
import MacroAsm.Program.Statement
import MacroAsm.Registry
import MacroAsm.Source.Line

set_option autoImplicit false

/-! # Listings

Code lines are read in order, each instruction takes the next slot of the program memory, and each
label stands for the slot of the instruction after it. Reading stops at the first instruction for
which there is no slot; lines that are no statements are reported and passed over. -/

namespace MacroAsm

/-- The number of slots. The index behind the last one still fits in a word. -/
def romCapacity : Nat := 65535

/-- A line with its statement and, for an instruction, its slot. -/
structure ParsedLine where
  line : Line
  statement : Option Statement
  slot : Option UInt16
  deriving DecidableEq, Repr

/-- The slots of the labels, each with the place of its definition. -/
abbrev Labels := Registry (UInt16 × Position)

namespace Labels

/-- The slot of a label. -/
def slot? (labels : Labels) (name : String) : Option UInt16 :=
  (labels.find? name).map Prod.fst

end Labels

/-- Lines that have been read, with their labels and the next free slot. -/
structure Listing where
  parsed : Array ParsedLine
  labels : Labels
  next : Nat
  report : Report

namespace Listing

/-- The listing of no lines. -/
def empty : Listing := ⟨#[], .empty, 0, .empty⟩

/-! ## Messages -/

/-- A line is no statement; the forms of its mnemonic are noted. -/
def unreadableMessage (l : Line) (e : StatementError) : Message :=
  (Form.candidates l.code).foldl
    (fun m f => m.withNote s!"`{f.mnemonic}` accepts `{f.written}`" none)
    (.about .error e.message l.position)

/-- There is no slot for an instruction. -/
def fullMessage (l : Line) : Message :=
  .about .error s!"Program does not fit in ROM of {romCapacity} instructions" l.position

/-- A label had a slot already. -/
def redefinedMessage (l : Line) (name : String) (previous : Position) : Message :=
  (Message.about .warning s!"Re-defined label: `{name}`" l.position).withNote
    "Already defined here. The value has been overridden." (some previous)

/-! ## Reading -/

/-- A listing with one more line that takes no slot. -/
def addLine (s : Listing) (l : Line) (statement : Option Statement) : Listing :=
  { s with parsed := s.parsed.push ⟨l, statement, none⟩ }

/-- A listing with one more message. -/
def addMessage (s : Listing) (m : Message) : Listing :=
  { s with report := s.report.push m }

/-- A listing with a label at the next slot. -/
def addLabel (s : Listing) (l : Line) (name : String) : Listing :=
  let s' := match s.labels.find? name with
    | some (_, previous) => s.addMessage (redefinedMessage l name previous)
    | none => s
  { s' with labels := s.labels.insert name (UInt16.ofNat s.next, l.position) }

/-- A listing with an instruction in the next slot. -/
def addInstruction (s : Listing) (l : Line) (i : Instruction) : Listing :=
  { s with
    parsed := s.parsed.push ⟨l, some (.instruction i), some (UInt16.ofNat s.next)⟩
    next := s.next + 1 }

/-- Read lines onto a listing, up to the first instruction without a slot. -/
def extend (s : Listing) : List Line → Listing
  | [] => s
  | l :: rest =>
    match Statement.parse l.code with
    | .error e => extend ((s.addMessage (unreadableMessage l e)).addLine l none) rest
    | .ok none => extend (s.addLine l none) rest
    | .ok (some (.label name)) =>
      extend ((s.addLabel l name).addLine l (some (.label name))) rest
    | .ok (some (.instruction i)) =>
      if romCapacity ≤ s.next then s.addMessage (fullMessage l)
      else extend (s.addInstruction l i) rest

/-- Read lines of code. -/
def ofLines (lines : List Line) : Listing :=
  empty.extend lines

end Listing

end MacroAsm
