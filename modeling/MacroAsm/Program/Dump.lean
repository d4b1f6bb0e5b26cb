import MacroAsm.Isa.Highlight
import MacroAsm.Program.Linking

set_option autoImplicit false

/-! # Dumps

A program on a terminal: each line with its slot, its encoding, its number, its source in colours and
its comment, under a heading for each file, and the variables below. -/

namespace MacroAsm

namespace Program

/-- The width of the columns before the line numbers. -/
def dumpMargin : String := Text.padEnd 19 ""

/-- The line between the parts of a dump. -/
def dumpRule : String :=
  String.ofList (List.replicate 19 '-') ++ "+" ++ String.ofList (List.replicate 53 '-')

/-- The line above the lines of a file. -/
def dumpHeading (file : String) : String :=
  String.ofList (List.replicate 19 '-') ++ s!"+------[{file}]" ++
    String.ofList (List.replicate (45 - file.utf8ByteSize) '-')

/-- An encoded instruction in hexadecimal, or marks where there is none. -/
def dumpWord : Option RomWord → String
  | some w => s!"{Text.hex 2 w.op.code} {Text.hex 4 w.a.toNat} {Text.hex 4 w.b.toNat}"
  | none => Style.apply [.red, .bold] "!! !!!! !!!!"

/-- A slot in hexadecimal. -/
def dumpSlot : Option UInt16 → String
  | some slot => Text.hex 4 slot.toNat
  | none => "????"

/-- A parsed line with the encoding of its instruction. -/
def dumpLine (p : ParsedLine) (w : Option RomWord) : String :=
  let comment := (p.line.comment.map fun c => Style.apply [.dim] s!"// {c}").getD ""
  let number := Text.padStart 4 (toString p.line.number)
  match p.statement with
  | none => s!"{dumpMargin}| {number}: {comment}"
  | some (.label name) =>
    let label := Style.apply [.green] s!"{name}:"
    s!"{dumpMargin}| {number}: {label} {comment}"
  | some (.instruction i) =>
    s!"[{dumpSlot p.slot}] {dumpWord w} | {number}: {i.shown} {comment}"

/-- The lines of a dump from some parsed lines on, with the encodings that are left and the file of
    the line before; `shown` holds the lines so far. -/
def dumpFrom (shown : Array String) (file : String) :
    List RomWord → List ParsedLine → Array String
  | _, [] => shown
  | rom, p :: rest =>
    let shown := if p.line.file = file then shown else shown.push (dumpHeading p.line.file)
    match p.statement with
    | some (.instruction _) =>
      dumpFrom (shown.push (dumpLine p rom.head?)) p.line.file rom.tail rest
    | _ => dumpFrom (shown.push (dumpLine p none)) p.line.file rom rest

/-- A variable with its address. -/
def dumpVariable (v : String × UInt16) : String :=
  dumpMargin ++ "| " ++ Style.apply [.cyan] s!"${Text.hex 4 v.2.toNat} *{v.1}"

/-- The variables, if there are any. -/
def dumpVariables (p : Program) : List String :=
  if p.addresses.entries.isEmpty then []
  else p.addresses.entries.map dumpVariable ++ [dumpRule]

/-- A program for a terminal. -/
def dump (p : Program) : String :=
  let lines := (dumpFrom #[] "" p.rom p.parsed).toList ++ dumpRule :: p.dumpVariables
  String.join (lines.map (· ++ "\n"))

end Program

end MacroAsm
