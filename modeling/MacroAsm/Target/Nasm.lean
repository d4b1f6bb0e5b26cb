import MacroAsm.Program.Linking

set_option autoImplicit false

/-! # Output for an x86-64 assembler

The program becomes a straight run of x86-64 instructions, with a label before those of each encoded
instruction and a table of these labels behind them, through which returns jump. Registers, memory
and stack are byte arrays of the template, which also holds the routines that push, pop, print and
jump through the table.

The instructions are built as data, so that what they do can be said apart from how they are
written. -/

namespace MacroAsm

namespace Nasm

/-! ## Instructions as data -/

/-- The machine registers in use, by their widths. -/
inductive Reg where
  | al
  | bl
  | eax
  | ebx
  | ecx
  | edx
  | edi
  | rcx
  deriving DecidableEq, Repr

/-- A place in the arrays: a register, a byte of memory, or the byte that `rcx` and `rdx` lead to. -/
inductive Cell where
  | register (i : Nat)
  | memory (i : Nat)
  | indexed
  deriving DecidableEq, Repr

/-- What an instruction works on. A byte cell says its width where no register does. -/
inductive Arg where
  | reg (r : Reg)
  | cell (c : Cell)
  | byteCell (c : Cell)
  | num (n : Nat)
  | memorySize
  | memoryBase
  deriving DecidableEq, Repr

/-- Operations on one thing. -/
inductive UnaryOp where
  | not
  | inc
  | dec
  | div
  deriving DecidableEq, Repr

/-- Operations on two things; the first takes the result. -/
inductive BinaryOp where
  | mov
  | movzx
  | lea
  | add
  | sub
  | and
  | or
  | xor
  | shl
  | shr
  | cmp
  deriving DecidableEq, Repr

/-- When a jump is taken. -/
inductive Condition where
  | always
  | equal
  | notEqual
  deriving DecidableEq, Repr

/-- Places in the code: those of the program's instructions, and those of the template. -/
inductive Label where
  | slot (pc : Nat)
  | finish
  | push
  | pop
  | dispatch
  | out
  deriving DecidableEq, Repr

/-- Instructions. -/
inductive Instr where
  | nop
  | unary (op : UnaryOp) (a : Arg)
  | binary (op : BinaryOp) (a b : Arg)
  | jump (c : Condition) (l : Label)
  | call (l : Label)
  deriving DecidableEq, Repr

/-! ## Instructions of an encoded instruction -/

/-- Where a jump to a slot goes; behind the program it ends. -/
def target (slot romSize : Nat) : Label :=
  if slot < romSize then .slot slot else .finish

/-- A register of the program. -/
def reg (i : UInt16) : Arg := .cell (.register i.toNat)

/-- A register of the program, its width said. -/
def byteReg (i : UInt16) : Arg := .byteCell (.register i.toNat)

/-- A byte of memory. -/
def byteAt (i : UInt16) : Arg := .cell (.memory i.toNat)

/-- Combine a place with a byte through `al`. -/
def throughAl (load : Arg) (op : BinaryOp) (store : Arg) : List Instr :=
  [.binary .mov (.reg .al) load, .binary op store (.reg .al)]

/-- Let `rcx` and `rdx` lead to the byte that a register points to, wherever memory ends. -/
def point (i : UInt16) : List Instr :=
  [.binary .movzx (.reg .eax) (byteReg i),
   .binary .xor (.reg .edx) (.reg .edx),
   .binary .mov (.reg .ecx) .memorySize,
   .unary .div (.reg .ecx),
   .binary .lea (.reg .rcx) .memoryBase]

/-- Push a byte. -/
def pushByte (value : Arg) : List Instr :=
  [.binary .mov (.reg .al) value, .call .push]

/-- The instructions of the encoded instruction in a slot. -/
def instrs (w : RomWord) (pc romSize : Nat) : List Instr :=
  let (a, b) := (w.a, w.b)
  match w.op with
  | .nop => [.nop]
  | .mov => throughAl (reg b) .mov (reg a)
  | .ldi => [.binary .mov (byteReg a) (.num b.toNat)]
  | .ld => throughAl (byteAt b) .mov (reg a)
  | .st => throughAl (reg b) .mov (byteAt a)
  | .ldp => point b ++ throughAl (.cell .indexed) .mov (reg a)
  | .stp => point a ++ throughAl (reg b) .mov (.cell .indexed)
  | .add => throughAl (reg b) .add (reg a)
  | .addi => [.binary .add (byteReg a) (.num b.toNat)]
  | .sub => throughAl (reg b) .sub (reg a)
  | .subi => [.binary .sub (byteReg a) (.num b.toNat)]
  | .and => throughAl (reg b) .and (reg a)
  | .or => throughAl (reg b) .or (reg a)
  | .xor => throughAl (reg b) .xor (reg a)
  | .not => [.unary .not (byteReg a)]
  | .shl => [.binary .shl (byteReg a) (.num 1)]
  | .shr => [.binary .shr (byteReg a) (.num 1)]
  | .inc => [.unary .inc (byteReg a)]
  | .dec => [.unary .dec (byteReg a)]
  | .jmp => [.jump .always (target a.toNat romSize)]
  | .jz => [.binary .cmp (byteReg a) (.num 0), .jump .equal (target b.toNat romSize)]
  | .jnz => [.binary .cmp (byteReg a) (.num 0), .jump .notEqual (target b.toNat romSize)]
  | .push => pushByte (reg a)
  | .pop => [.call .pop, .binary .mov (reg a) (.reg .al)]
  | .call =>
    pushByte (.num ((pc + 1) % 256)) ++ pushByte (.num ((pc + 1) / 256 % 256)) ++
      [.jump .always (target a.toNat romSize)]
  | .ret =>
    [.call .pop, .binary .movzx (.reg .ebx) (.reg .al), .binary .shl (.reg .ebx) (.num 8),
     .call .pop, .binary .or (.reg .bl) (.reg .al), .jump .always .dispatch]
  | .out => [.binary .movzx (.reg .edi) (byteReg a), .call .out]
  | .hlt => [.jump .always .finish]

/-! ## Lines of a program -/

/-- The parts of the output that hold code or data. -/
inductive Section where
  | data
  | text
  deriving DecidableEq, Repr

/-- A line of the output. -/
inductive Item where
  | slot (pc : Nat) (source : Option String)
  | instr (i : Instr)
  | blank
  | romSize (n : Nat)
  | enter (s : Section)
  | table
  | row (slots : List Nat)
  deriving DecidableEq, Repr

/-- The lines of the encoded instruction in a slot. -/
def slotItems (source : Array String) (romSize : Nat) (item : RomWord × Nat) : List Item :=
  .slot item.2 source[item.2]? :: (instrs item.1 item.2 romSize).map .instr

/-- The slots below a number, in rows of eight. -/
def rows (n : Nat) : List (List Nat) :=
  (List.range ((n + 7) / 8)).map fun i => List.range' (8 * i) (Nat.min 8 (n - 8 * i))

/-- The lines of a program. What the template has behind the code goes on in the part for code. -/
def items (p : Program) : List Item :=
  let size := p.rom.length
  p.rom.zipIdx.flatMap (slotItems p.source.toArray size) ++
    [.instr (.jump .always .finish), .blank, .romSize size, .blank, .enter .data, .table] ++
    (rows size).map .row ++ [.blank, .enter .text]

/-! ## Writing -/

/-- A machine register as it is written. -/
def Reg.written : Reg → String
  | .al => "al"
  | .bl => "bl"
  | .eax => "eax"
  | .ebx => "ebx"
  | .ecx => "ecx"
  | .edx => "edx"
  | .edi => "edi"
  | .rcx => "rcx"

/-- A place in the arrays as it is written. -/
def Cell.written : Cell → String
  | .register i => s!"[registers + {i}]"
  | .memory i => s!"[memory + {i}]"
  | .indexed => "[rcx + rdx]"

/-- An argument as it is written. -/
def Arg.written : Arg → String
  | .reg r => r.written
  | .cell c => c.written
  | .byteCell c => s!"byte {c.written}"
  | .num n => toString n
  | .memorySize => "MEMORY_SIZE"
  | .memoryBase => "[memory]"

/-- A one-place operation as it is written. -/
def UnaryOp.written : UnaryOp → String
  | .not => "not"
  | .inc => "inc"
  | .dec => "dec"
  | .div => "div"

/-- A two-place operation as it is written. -/
def BinaryOp.written : BinaryOp → String
  | .mov => "mov"
  | .movzx => "movzx"
  | .lea => "lea"
  | .add => "add"
  | .sub => "sub"
  | .and => "and"
  | .or => "or"
  | .xor => "xor"
  | .shl => "shl"
  | .shr => "shr"
  | .cmp => "cmp"

/-- A jump as it is written. -/
def Condition.written : Condition → String
  | .always => "jmp"
  | .equal => "je"
  | .notEqual => "jne"

/-- A label as it is written. -/
def Label.written : Label → String
  | .slot pc => s!"mccpu_{pc}"
  | .finish => "mccpu_end"
  | .push => "mccpu_push"
  | .pop => "mccpu_pop"
  | .dispatch => "mccpu_dispatch"
  | .out => "mccpu_out"

/-- An instruction as it is written. -/
def Instr.written : Instr → String
  | .nop => "nop"
  | .unary op a => s!"{op.written} {a.written}"
  | .binary op a b => s!"{op.written} {a.written}, {b.written}"
  | .jump c l => s!"{c.written} {l.written}"
  | .call l => s!"call {l.written}"

/-- A part of the output as it is written. -/
def Section.written : Section → String
  | .data => "section .data"
  | .text => "section .text"

/-- A line as it is written. -/
def Item.written : Item → String
  | .slot pc (some source) => s!"{(Label.slot pc).written}: ; {source}"
  | .slot pc none => s!"{(Label.slot pc).written}:"
  | .instr i => "    " ++ i.written
  | .blank => ""
  | .romSize n => s!"ROM_SIZE equ {n}"
  | .enter s => s.written
  | .table => "rom_table:"
  | .row slots => "    dq " ++ String.intercalate ", " (slots.map fun pc => (Label.slot pc).written)

/-- The code of a program. -/
def code (p : Program) : String :=
  String.intercalate "\n" ((items p).map Item.written)

end Nasm

end MacroAsm
