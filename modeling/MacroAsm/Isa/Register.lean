import MacroAsm.Numeral

set_option autoImplicit false

/-! # Registers

A register is written `&r` and its index in decimal. There are at most 256 of them; how many a
machine has is decided when an operand is resolved. -/

namespace MacroAsm

/-- A register, by its index. -/
structure Register where
  index : Fin 256
  deriving DecidableEq, Repr

/-- Why a text names no register. -/
inductive RegisterError where
  | notRegister (text : String)
  | outOfRange (text : String)
  deriving DecidableEq, Repr

/-- The wording of an error. -/
def RegisterError.message : RegisterError → String
  | .notRegister text => s!"Not a register: {text}"
  | .outOfRange text => s!"Register index out of range: {text}"

namespace Register

/-- Read a register: `&r` and at least one ASCII digit, the value below 256. -/
def parse (s : String) : Except RegisterError Register :=
  match s.toList with
  | '&' :: 'r' :: d :: ds =>
    if (d :: ds).all Char.isDigit then
      match h : Numeral.readDigits 255 .decimal (d :: ds) with
      | .ok n => .ok ⟨⟨n, Nat.lt_succ_of_le (Numeral.le_of_readDigits_eq_ok h)⟩⟩
      | .error _ => .error (.outOfRange s)
    else .error (.notRegister s)
  | _ => .error (.notRegister s)

/-- A register as it is written. -/
def written (r : Register) : String :=
  s!"&r{r.index.val}"

end Register

end MacroAsm
