import MacroAsm.Isa.Opcode
import MacroAsm.Isa.Operand

set_option autoImplicit false

/-! # Instruction forms

A form is a mnemonic with the kinds of its operands. The native forms tell which operation a written
instruction stands for: no two of them have the same mnemonic and kinds, so at most one accepts an
instruction. -/

namespace MacroAsm

/-! ## Cutting an instruction -/

/-- The mnemonic of an instruction and its operands, cut at commas and trimmed. An empty rest has no
    operands; any other has one more than it has commas. -/
def splitInstruction (s : String) : String × List String :=
  let line := Text.trim s.toList
  match Text.splitAtBlank line with
  | none => (String.ofList line, [])
  | some (mnemonic, rest) =>
    let operands := Text.trim rest
    if operands.isEmpty then (String.ofList mnemonic, [])
    else
      let parts := operands.splitOn ','
      (String.ofList mnemonic, parts.map fun p => String.ofList (Text.trim p))

/-! ## Forms -/

/-- How an operation is written: its mnemonic and the kinds of its operands. -/
structure Form where
  op : Opcode
  mnemonic : String
  kinds : List OperandKind
  deriving DecidableEq, Repr

/-- A mnemonic and its arguments, with a comma between two arguments. -/
def joinOperands (mnemonic : String) : List String → String
  | [] => mnemonic
  | args => mnemonic ++ " " ++ String.intercalate ", " args

namespace Form

/-- Read the form of an operation from its text. -/
def parse (op : Opcode) (s : String) : Except OperandKind.Unknown Form :=
  let (mnemonic, args) := splitInstruction s
  match args.mapM OperandKind.parse with
  | .ok kinds => .ok ⟨op, mnemonic, kinds⟩
  | .error e => .error e

/-- A form as it is written. -/
def written (f : Form) : String :=
  joinOperands f.mnemonic (f.kinds.map OperandKind.token)

/-- Whether a mnemonic and operands have a form. -/
def accepts (f : Form) (mnemonic : String) (operands : List Operand) : Bool :=
  f.mnemonic == mnemonic && f.kinds == operands.map Operand.kind

/-- Whether a written instruction has a form. -/
def acceptsText (f : Form) (s : String) : Bool :=
  let (mnemonic, args) := splitInstruction s
  match args.mapM Operand.parse with
  | .ok operands => f.accepts mnemonic operands
  | .error _ => false

/-- The native form of an operation with operands of some kinds. -/
def ofOp (op : Opcode) (kinds : List OperandKind) : Form :=
  ⟨op, op.mnemonic, kinds⟩

/-- The forms of the machine. A variable is written wherever an address is. -/
def native : List Form :=
  [ofOp .nop [],
   ofOp .mov [.register, .register],
   ofOp .ldi [.register, .number],
   ofOp .ld [.register, .address],
   ofOp .ld [.register, .variable],
   ofOp .st [.address, .register],
   ofOp .st [.variable, .register],
   ofOp .ldp [.register, .pointer],
   ofOp .stp [.pointer, .register],
   ofOp .add [.register, .register],
   ofOp .addi [.register, .number],
   ofOp .sub [.register, .register],
   ofOp .subi [.register, .number],
   ofOp .and [.register, .register],
   ofOp .or [.register, .register],
   ofOp .xor [.register, .register],
   ofOp .not [.register],
   ofOp .shl [.register],
   ofOp .shr [.register],
   ofOp .inc [.register],
   ofOp .dec [.register],
   ofOp .jmp [.label],
   ofOp .jz [.register, .label],
   ofOp .jnz [.register, .label],
   ofOp .push [.register],
   ofOp .pop [.register],
   ofOp .call [.label],
   ofOp .ret [],
   ofOp .out [.register],
   ofOp .hlt []]

/-- The native forms with the mnemonic of a line, to be shown when the line has none of them. -/
def candidates (s : String) : List Form :=
  let (mnemonic, _) := splitInstruction s
  native.filter fun f => f.mnemonic == mnemonic

end Form

end MacroAsm
