import MacroAsm.Memory.Allocator
import MacroAsm.Memory.Layout
import MacroAsm.Options
import MacroAsm.Registry
import MacroAsm.Text.Cut

set_option autoImplicit false

/-! # Assigning addresses

Every variable of a layout gets one byte of memory. Variables that have no address of their own take
the first free one, of the whole memory or of one bank after the other; a bank that is full hands on
to the whole memory. -/

namespace MacroAsm

/-- The addresses of variables. -/
abbrev Variables := Registry UInt16

/-! ## Variables in use -/

/-- Read the name of a variable behind its mark. -/
def readVariable? : List Char → Option (List Char × List Char)
  | [] => none
  | c :: cs =>
    if OperandKind.identStart.has c then
      some (c :: cs.takeWhile OperandKind.identRest.has, cs.dropWhile OperandKind.identRest.has)
    else none

/-- The variables that a line of code uses. -/
def variablesIn (code : String) : List String :=
  (Text.Cut.ofChars '*' readVariable? code.toList).tokens.map String.ofList

/-- The variables that some lines use, each with the place of its first use. -/
def usedVariables (lines : List Line) : Registry Position :=
  lines.foldl
    (fun used l => (variablesIn l.code).foldl (fun used name => used.insertNew name l.position) used)
    .empty

namespace Layout

/-! ## Messages -/

/-- No address is granted to a variable. -/
def allocationMessage (p : Position) (e : AllocationError) : Message :=
  .about .error e.message p

/-- A variable is used without a declaration. -/
def undeclaredMessage (layout : Layout) (name : String) (p : Position) : Message :=
  (Message.about .error s!"Variable `{name}` is used but not declared" p).withNote
    "declared variables are listed in #memorylayout" layout.position

/-- A declared variable is not used. -/
def unusedMessage (d : Declaration) : Message :=
  .about .info s!"Variable `{d.name}` is declared but never used" d.position

/-! ## Granting -/

/-- Addresses granted so far, the memory left, and what was reported. -/
structure Assigned where
  addresses : Variables
  memory : Allocator
  report : Report

/-- Take note of an address that was granted, or of the reason why none was. -/
def Assigned.note (s : Assigned) (name : String) (p : Position) :
    Except AllocationError (Nat × Allocator) → Assigned
  | .ok (address, memory) =>
    { s with addresses := s.addresses.insert name (UInt16.ofNat address), memory }
  | .error e => { s with report := s.report.push (allocationMessage p e) }

/-- Grant a declared variable the address it asks for. -/
def Assigned.grantExplicit (s : Assigned) (d : Declaration) : Assigned :=
  match d.address with
  | none => s
  | some address =>
    s.note d.name d.position ((s.memory.grant address d.name).map fun m => (address, m))

/-- The bank of the variable with some index: its first and its last address. The last bank goes up
    to the end of memory. -/
def bank (o : Options) (last index : Nat) : Nat × Nat :=
  let banks := Nat.max o.memoryBlocks 1
  let size := o.memorySize / banks
  let first := index % banks * size
  (first, if index % banks + 1 = banks then last else first + size - 1)

/-- Grant the variable with some index an address, as the balance chooses it. -/
def Assigned.grantNext (balance : Balance) (o : Options) (s : Assigned)
    (item : (String × Position) × Nat) : Assigned :=
  let ((name, p), index) := item
  s.note name p <|
    match balance with
    | .incremental => s.memory.grantFirst 0 s.memory.last name
    | .balanced =>
      let (first, last) := bank o s.memory.last index
      match s.memory.grantFirst first last name with
      | .ok granted => .ok granted
      | .error _ => s.memory.grantFirst 0 s.memory.last name

/-- The variables of a layout without addresses of their own, in order. -/
def names (layout : Layout) (used : Registry Position) : List (String × Position) :=
  match layout.kind with
  | .staticAuto => used.entries
  | _ => layout.declarations.map fun d => (d.name, d.position)

/-- The names that a layout declares. -/
def declaredNames (layout : Layout) : Registry Unit :=
  layout.declarations.foldl (fun names d => names.insertNew d.name ()) .empty

/-- Differences between the variables declared and those used. -/
def usageMessages (layout : Layout) (used : Registry Position) : List Message :=
  if layout.kind = .staticAuto then []
  else
    let declared := layout.declaredNames
    (used.entries.filter fun u => !declared.contains u.1).map
        (fun u => undeclaredMessage layout u.1 u.2) ++
      (layout.declarations.filter fun d => !used.contains d.name).map unusedMessage

/-- Give the variables of a layout their addresses. -/
def assign (layout : Layout) (code : List Line) (o : Options) : Variables × Report :=
  let used := usedVariables code
  let start : Assigned := ⟨.empty, .ofSize o.memorySize, .empty⟩
  let s :=
    if layout.kind = .explicit then layout.declarations.foldl Assigned.grantExplicit start
    else (layout.names used).zipIdx.foldl (Assigned.grantNext layout.balance o) start
  (s.addresses, s.report ++ .ofList (layout.usageMessages used))

end Layout

end MacroAsm
