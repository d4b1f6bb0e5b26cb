import MacroAsm.Isa.Form

set_option autoImplicit false

/-! # Instructions

An instruction is an operation with its operands. It is encoded as a triple of words once each
operand has a value; places without an operand hold zero. -/

namespace MacroAsm

/-- An operation with its operands as written. -/
structure Instruction where
  op : Opcode
  operands : List Operand
  deriving DecidableEq, Repr

/-- Why a line is no instruction. -/
inductive InstructionError where
  | empty
  | operand (e : OperandError)
  | unknown (line : String)
  deriving DecidableEq, Repr

/-- The wording of an error. -/
def InstructionError.message : InstructionError → String
  | .empty => "Syntax Error: empty instruction"
  | .operand e => e.message
  | .unknown line => s!"Unknown instruction: `{line}`"

/-- An encoded instruction: the code of its operation and two arguments. -/
structure RomWord where
  op : Opcode
  a : UInt16
  b : UInt16
  deriving DecidableEq, Repr

/-- An encoded instruction as a triple of numbers. -/
def RomWord.written (w : RomWord) : String :=
  s!"({w.op.code}, {w.a.toNat}, {w.b.toNat})"

namespace Instruction

/-- Read an instruction: all operands must be readable and some native form must fit. -/
def parse (s : String) : Except InstructionError Instruction :=
  let (mnemonic, args) := splitInstruction s
  if mnemonic.isEmpty then .error .empty
  else match args.mapM Operand.parse with
    | .error e => .error (.operand e)
    | .ok operands =>
      match Form.native.find? (fun f => f.accepts mnemonic operands) with
      | some f => .ok ⟨f.op, operands⟩
      | none => .error (.unknown (String.ofList (Text.trim s.toList)))

/-- An instruction as it is written, one space after the mnemonic. -/
def written (i : Instruction) : String :=
  joinOperands i.op.mnemonic (i.operands.map Operand.written)

/-- The value of an operand that may be absent. -/
def argument {ε : Type} (value : Operand → Except ε UInt16) : Option Operand → Except ε UInt16
  | none => .ok 0
  | some o => value o

/-- Encode an instruction, given the values of operands; the first operand is looked at first. -/
def resolve {ε : Type} (value : Operand → Except ε UInt16) (i : Instruction) : Except ε RomWord :=
  match argument value i.operands[0]? with
  | .error e => .error e
  | .ok a =>
    match argument value i.operands[1]? with
    | .error e => .error e
    | .ok b => .ok ⟨i.op, a, b⟩

end Instruction

end MacroAsm
