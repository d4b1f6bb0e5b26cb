import MacroAsm.Isa.Instruction
import MacroAsm.Options

set_option autoImplicit false

/-! # The machine

What the instructions of a program mean: bytes in registers, in memory and on a stack that wraps around,
all of sizes that the options give, a place in the program, and what was printed. A machine runs until
an instruction stops it or it leaves the program.

The places that a word names are taken to be there; in a compiled program they are. -/

namespace MacroAsm

/-- The bytes that a program works on. -/
structure Bytes (o : Options) where
  registers : Vector UInt8 o.registerCount
  memory : Vector UInt8 o.memorySize
  stack : Vector UInt8 o.stackSize
  deriving DecidableEq

/-- Nothing but zeros. -/
def Bytes.zero (o : Options) : Bytes o where
  registers := Vector.replicate _ 0
  memory := Vector.replicate _ 0
  stack := Vector.replicate _ 0

/-- A machine: its bytes, where the next byte is pushed, where it is in the program, whether it runs,
    and what it has printed. -/
structure Machine (o : Options) extends Bytes o where
  sp : Nat
  pc : Nat
  running : Bool
  output : String
  deriving DecidableEq

namespace Machine

variable {o : Options}

/-- A machine before its first step. -/
def start (o : Options) : Machine o where
  toBytes := .zero o
  sp := 0
  pc := 0
  running := true
  output := ""

/-! ## Places -/

/-- The byte in a register. -/
def reg (m : Machine o) (i : UInt16) : UInt8 :=
  m.registers[i.toNat]?.getD 0

def setReg (m : Machine o) (i : UInt16) (v : UInt8) : Machine o :=
  { m with registers := m.registers.setIfInBounds i.toNat v }

/-- The byte at an address. -/
def byteAt (m : Machine o) (i : Nat) : UInt8 :=
  m.memory[i]?.getD 0

def setByteAt (m : Machine o) (i : Nat) (v : UInt8) : Machine o :=
  { m with memory := m.memory.setIfInBounds i v }

/-- The address that a register points to, wherever memory ends. -/
def pointed (m : Machine o) (i : UInt16) : Nat :=
  (m.reg i).toNat % o.memorySize

/-- Push a byte; the stack is a ring. -/
def push (m : Machine o) (v : UInt8) : Machine o :=
  { m with
    stack := m.stack.setIfInBounds m.sp v
    sp := if m.sp + 1 = o.stackSize then 0 else m.sp + 1 }

/-- Take the last byte from the stack. -/
def lower (m : Machine o) : Machine o :=
  { m with sp := if m.sp = 0 then o.stackSize - 1 else m.sp - 1 }

/-- The byte under the place where the next one is pushed. -/
def top (m : Machine o) : UInt8 :=
  m.lower.stack[m.lower.sp]?.getD 0

/-- Go on somewhere else. -/
def jump (m : Machine o) (target : UInt16) : Machine o :=
  { m with pc := target.toNat }

/-! ## Steps -/

/-- What a word does; the machine is already past it. -/
def execute (m : Machine o) (w : RomWord) : Machine o :=
  let (a, b) := (w.a, w.b)
  match w.op with
  | .nop => m
  | .mov => m.setReg a (m.reg b)
  | .ldi => m.setReg a b.toUInt8
  | .ld => m.setReg a (m.byteAt b.toNat)
  | .st => m.setByteAt a.toNat (m.reg b)
  | .ldp => m.setReg a (m.byteAt (m.pointed b))
  | .stp => m.setByteAt (m.pointed a) (m.reg b)
  | .add => m.setReg a (m.reg a + m.reg b)
  | .addi => m.setReg a (m.reg a + b.toUInt8)
  | .sub => m.setReg a (m.reg a - m.reg b)
  | .subi => m.setReg a (m.reg a - b.toUInt8)
  | .and => m.setReg a (m.reg a &&& m.reg b)
  | .or => m.setReg a (m.reg a ||| m.reg b)
  | .xor => m.setReg a (m.reg a ^^^ m.reg b)
  | .not => m.setReg a (~~~m.reg a)
  | .shl => m.setReg a (m.reg a <<< 1)
  | .shr => m.setReg a (m.reg a >>> 1)
  | .inc => m.setReg a (m.reg a + 1)
  | .dec => m.setReg a (m.reg a - 1)
  | .jmp => m.jump a
  | .jz => if m.reg a = 0 then m.jump b else m
  | .jnz => if m.reg a = 0 then m else m.jump b
  | .push => m.push (m.reg a)
  | .pop => m.lower.setReg a m.top
  | .call => ((m.push (UInt8.ofNat m.pc)).push (UInt8.ofNat (m.pc / 256))).jump a
  | .ret =>
    let high := m.top
    let low := m.lower.top
    { m.lower.lower with pc := high.toNat * 256 + low.toNat }
  | .out => { m with output := m.output ++ toString (m.reg a).toNat ++ "\n" }
  | .hlt => { m with running := false }

/-- One step: the next word, if there is one. -/
def step (rom : List RomWord) (m : Machine o) : Machine o :=
  if m.running then
    match rom[m.pc]? with
    | some w => { m with pc := m.pc + 1 }.execute w
    | none => { m with running := false }
  else m

/-- Some steps. -/
def steps (rom : List RomWord) : Nat → Machine o → Machine o
  | 0, m => m
  | n + 1, m => steps rom n (m.step rom)

end Machine

end MacroAsm
