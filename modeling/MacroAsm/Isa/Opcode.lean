import MacroAsm.Text.Case

set_option autoImplicit false

/-! # Operations

The operations of the machine, numbered from zero in the order of the type. Several share the
mnemonic under which they are written; their operand kinds tell them apart (`Isa/Form.lean`). -/

namespace MacroAsm

/-- The operations, in the order of their codes. -/
inductive Opcode where
  | nop | mov | ldi | ld | st | ldp | stp
  | add | addi | sub | subi | and | or | xor | not | shl | shr | inc | dec
  | jmp | jz | jnz | push | pop | call | ret | out | hlt
  deriving DecidableEq, Repr

namespace Opcode

/-- All operations, in the order of their codes. -/
def all : List Opcode :=
  [.nop, .mov, .ldi, .ld, .st, .ldp, .stp, .add, .addi, .sub, .subi, .and, .or, .xor, .not, .shl,
   .shr, .inc, .dec, .jmp, .jz, .jnz, .push, .pop, .call, .ret, .out, .hlt]

/-- The code of an operation. -/
def code : Opcode → Nat
  | .nop => 0 | .mov => 1 | .ldi => 2 | .ld => 3 | .st => 4 | .ldp => 5 | .stp => 6
  | .add => 7 | .addi => 8 | .sub => 9 | .subi => 10 | .and => 11 | .or => 12 | .xor => 13
  | .not => 14 | .shl => 15 | .shr => 16 | .inc => 17 | .dec => 18
  | .jmp => 19 | .jz => 20 | .jnz => 21 | .push => 22 | .pop => 23 | .call => 24 | .ret => 25
  | .out => 26 | .hlt => 27

/-- The operation with a code; an unused code does nothing. -/
def ofCode (n : Nat) : Opcode :=
  all.getD n .nop

/-- Codes and operations correspond. -/
theorem ofCode_code (op : Opcode) : ofCode op.code = op := by
  cases op <;> rfl

/-- The name of an operation. -/
def name : Opcode → String
  | .nop => "NOP" | .mov => "MOV" | .ldi => "LDI" | .ld => "LD" | .st => "ST" | .ldp => "LDP"
  | .stp => "STP" | .add => "ADD" | .addi => "ADDI" | .sub => "SUB" | .subi => "SUBI"
  | .and => "AND" | .or => "OR" | .xor => "XOR" | .not => "NOT" | .shl => "SHL" | .shr => "SHR"
  | .inc => "INC" | .dec => "DEC" | .jmp => "JMP" | .jz => "JZ" | .jnz => "JNZ" | .push => "PUSH"
  | .pop => "POP" | .call => "CALL" | .ret => "RET" | .out => "OUT" | .hlt => "HLT"

/-- The mnemonic under which an operation is written. -/
def mnemonic : Opcode → String
  | .nop => "nop"
  | .mov | .ldi | .ld | .st | .ldp | .stp => "mov"
  | .add | .addi => "add"
  | .sub | .subi => "sub"
  | .and => "and" | .or => "or" | .xor => "xor" | .not => "not" | .shl => "shl" | .shr => "shr"
  | .inc => "inc" | .dec => "dec" | .jmp => "jmp" | .jz => "jz" | .jnz => "jnz" | .push => "push"
  | .pop => "pop" | .call => "call" | .ret => "ret" | .out => "out" | .hlt => "hlt"

/-- There is no operation of a name. -/
structure Unknown where
  name : String
  deriving DecidableEq, Repr

/-- The wording of the error. -/
def Unknown.message (e : Unknown) : String :=
  s!"Undefined Op: {e.name}"

/-- The operation of a name, written in either case. -/
def parse (s : String) : Except Unknown Opcode :=
  let upper := s.toList.flatMap Text.asciiUpper
  match all.find? (fun op => op.name.toList == upper) with
  | some op => .ok op
  | none => .error ⟨s⟩

end Opcode

end MacroAsm
