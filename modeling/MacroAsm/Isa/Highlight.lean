import MacroAsm.Diagnostics.Style
import MacroAsm.Isa.Instruction
import MacroAsm.Text.Column

set_option autoImplicit false

/-! # Coloured instructions

Instructions as a terminal shows them: the mnemonic in a column of five, and operands coloured by
what they stand for. -/

namespace MacroAsm

/-- The colour of an operand: registers, memory, values and code each have their own. -/
def Operand.colour : Operand → Style
  | .register _ | .pointer _ => .blue
  | .variable _ | .address _ => .cyan
  | .number _ | .quoted _ => .yellow
  | .label _ => .green

/-- An instruction in colours. -/
def Instruction.shown (i : Instruction) : String :=
  Style.apply [.red] (Text.padEnd 5 i.op.mnemonic) ++
    String.intercalate ", " (i.operands.map fun o => Style.apply [o.colour] o.written)

end MacroAsm
