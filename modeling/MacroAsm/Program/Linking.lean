import MacroAsm.Program.Resolution

set_option autoImplicit false

/-! # Programs

A listing becomes a program when its instructions are encoded. Each part of a program is one pass over
the same encoded lines, so the parts agree by construction; an instruction that cannot be encoded
leaves only its line in the annotated text, and an error. -/

namespace MacroAsm

/-- An entry of the program memory as it is listed: an encoded instruction, or a label before it. -/
inductive RomEntry where
  | label (name : String)
  | word (w : RomWord)
  deriving DecidableEq, Repr

/-- An entry as it is written. -/
def RomEntry.written : RomEntry → String
  | .label name => name ++ ":"
  | .word w => w.written

/-- A compiled program: native lines, annotated text, program memory with and without labels, the
    addresses of variables and labels, the instructions as they were before encoding, and the lines
    that all of it was made of. -/
structure Program where
  lines : List String
  listing : List String
  rom : List RomWord
  romWithLabels : List RomEntry
  addresses : Variables
  labels : Labels
  source : List String
  parsed : List ParsedLine

/-- What a parsed line contributes. -/
inductive Encoded where
  | nothing
  | label (name : String)
  | word (i : Instruction) (w : RomWord)
  | failed (i : Instruction) (e : ResolveError)

namespace Encoded

/-- Encode the statement of a line. -/
def ofStatement (scope : Scope) : Option Statement → Encoded
  | none => .nothing
  | some (.label name) => .label name
  | some (.instruction i) =>
    match i.resolve scope.value with
    | .ok w => .word i w
    | .error e => .failed i e

/-- The encoded instruction. -/
def word? : Encoded → Option RomWord
  | .word _ w => some w
  | _ => none

/-- The encoded instruction or the label. -/
def listed? : Encoded → Option RomEntry
  | .word _ w => some (.word w)
  | .label name => some (.label name)
  | _ => none

/-- An instruction that was encoded, as it is written. -/
def source? : Encoded → Option String
  | .word i _ => some i.written
  | _ => none

/-- An instruction that was encoded, without names. -/
def native? (scope : Scope) : Encoded → Option String
  | .word i _ => some (scope.native i)
  | _ => none

/-- The code of a line, whether it was encoded or not. -/
def code? : Encoded → Option String
  | .nothing => none
  | .label name => some (name ++ ":")
  | .word i _ | .failed i _ => some i.written

/-- A line of annotated text: code, comment, or both; nothing for a line with neither. -/
def annotated? (comment : Option String) (e : Encoded) : Option String :=
  match e.code?, comment.filter (fun c => !c.isEmpty) with
  | some code, some c => some s!"{code} // {c}"
  | some code, none => some code
  | none, some c => some s!"// {c}"
  | none, none => none

/-- The error of a line. -/
def message? (p : ParsedLine) : Encoded → Option Message
  | .failed _ e => some (.about .error e.message p.line.position)
  | _ => none

end Encoded

/-- The program of parsed lines with its names, and what is reported about it. -/
def Program.link (scope : Scope) (parsed : List ParsedLine) : Program × Report :=
  let encoded := parsed.map fun p => (p, Encoded.ofStatement scope p.statement)
  ({ lines := encoded.filterMap fun x => x.2.native? scope
     listing := encoded.filterMap fun x => x.2.annotated? x.1.line.comment
     rom := encoded.filterMap fun x => x.2.word?
     romWithLabels := encoded.filterMap fun x => x.2.listed?
     addresses := scope.addresses
     labels := scope.labels
     source := encoded.filterMap fun x => x.2.source?
     parsed },
   .ofList (encoded.filterMap fun x => x.2.message? x.1))

end MacroAsm
