import MacroAsm.Memory.Assignment
import MacroAsm.Program.Listing

set_option autoImplicit false

/-! # Values of operands

Registers, addresses and numbers have their values in themselves and must fit the machine; variables
and labels get theirs from the tables of the program. -/

namespace MacroAsm

/-- Why an operand has no value. -/
inductive ResolveError where
  | noRegister (r : Register) (count : Nat)
  | noAddress (name : String)
  | outsideMemory (a : Int) (size : Nat)
  | notByte (n : Int)
  | noLabel (name : String)
  | quoted
  deriving DecidableEq, Repr

/-- The wording of an error. -/
def ResolveError.message : ResolveError → String
  | .noRegister r count => s!"Register {r.written} does not exist, register count is {count}"
  | .noAddress name => s!"Variable `{name}` has no address"
  | .outsideMemory a size => s!"Address {a} is outside of memory, memory size is {size}"
  | .notByte n => s!"Number {n} does not fit in a byte"
  | .noLabel name => s!"Undefined label `{name}`"
  | .quoted => "Strings can only be used as macro arguments"

/-- What gives operands their values: the sizes of the machine, and the tables of the program. -/
structure Scope where
  registerCount : Nat
  memorySize : Nat
  labels : Labels
  addresses : Variables

namespace Scope

/-- A register, if the machine has it. -/
def registerValue (s : Scope) (r : Register) : Except ResolveError UInt16 :=
  if r.index.val < s.registerCount then .ok (UInt16.ofNat r.index.val)
  else .error (.noRegister r s.registerCount)

/-- The value of an operand. A number stands for its byte, negative ones in two's complement. -/
def value (s : Scope) : Operand → Except ResolveError UInt16
  | .register r => s.registerValue r
  | .pointer r => s.registerValue r
  | .variable name =>
    match s.addresses.find? name with
    | some a => .ok a
    | none => .error (.noAddress name)
  | .address a =>
    if 0 ≤ a ∧ a < s.memorySize then .ok (UInt16.ofNat a.toNat)
    else .error (.outsideMemory a s.memorySize)
  | .number n =>
    if -128 ≤ n ∧ n ≤ 255 then .ok (UInt16.ofNat (n % 256).toNat) else .error (.notByte n)
  | .label name =>
    match s.labels.slot? name with
    | some slot => .ok slot
    | none => .error (.noLabel name)
  | .quoted _ => .error .quoted

/-- An operand with the value of a variable or label in place of its name. -/
def written (s : Scope) (o : Operand) : String :=
  match o with
  | .variable name =>
    match s.addresses.find? name with
    | some a => s!"${a.toNat}"
    | none => o.written
  | .label name =>
    match s.labels.slot? name with
    | some slot => toString slot.toNat
    | none => o.written
  | _ => o.written

/-- An instruction without names: variables as addresses, labels as slots. -/
def native (s : Scope) (i : Instruction) : String :=
  joinOperands i.op.mnemonic (i.operands.map s.written)

end Scope

end MacroAsm
