set_option autoImplicit false

/-! # Numerals

A numeral is decimal, or hexadecimal, binary or octal behind `0x`, `0b`, `0o`; one minus may stand in
front of all of it. Its digits must stay within 31 bits before the minus is applied, so that negation
cannot leave the range. `Numeral.parse` reads digit by digit and reports the first digit at which the
text fails.

Register indices, sizes and other magnitudes are read in the same way (`Numeral.readDigits`), each up
to a limit of its own. More digits never make a value smaller, so reading stops where the limit is
passed. -/

namespace MacroAsm

/-- The base in which the digits of a numeral are read. -/
inductive Radix where
  | binary
  | octal
  | decimal
  | hexadecimal
  deriving DecidableEq, Repr

namespace Radix

/-- The number of digits of a base. -/
def base : Radix → Nat
  | .binary => 2
  | .octal => 8
  | .decimal => 10
  | .hexadecimal => 16

/-- The base that a text names at its front, and the text behind that name. -/
def split : List Char → Radix × List Char
  | '0' :: 'b' :: rest => (.binary, rest)
  | '0' :: 'o' :: rest => (.octal, rest)
  | '0' :: 'x' :: rest => (.hexadecimal, rest)
  | cs => (.decimal, cs)

end Radix

/-- The value of a digit of any base, letters in either case. -/
def digitValue? (c : Char) : Option Nat :=
  if '0' ≤ c && c ≤ '9' then some (c.toNat - '0'.toNat)
  else if 'a' ≤ c && c ≤ 'f' then some (c.toNat - 'a'.toNat + 10)
  else if 'A' ≤ c && c ≤ 'F' then some (c.toNat - 'A'.toNat + 10)
  else none

namespace Numeral

/-- The greatest magnitude of a numeral. -/
def limit : Nat := 2147483647

/-- Why a text is no numeral. -/
inductive Error where
  | sign
  | noDigits
  | badDigit
  | tooLarge
  deriving DecidableEq, Repr

/-- The wording of an error. -/
def Error.message : Error → String
  | .sign => "only one leading `-` is allowed"
  | .noDigits => "cannot parse integer from empty string"
  | .badDigit => "invalid digit found in string"
  | .tooLarge => "number too large to fit in target type"

/-- Read the remaining digits onto the value of those before them, up to a limit. -/
def readOnto (limit : Nat) (radix : Radix) (value : Nat) : List Char → Except Error Nat
  | [] => .ok value
  | c :: cs =>
    match digitValue? c with
    | none => .error .badDigit
    | some d =>
      if radix.base ≤ d then .error .badDigit
      else if limit < value * radix.base + d then .error .tooLarge
      else readOnto limit radix (value * radix.base + d) cs

/-- Read a magnitude up to a limit: digits, with no sign of their own. -/
def readDigits (limit : Nat) (radix : Radix) : List Char → Except Error Nat
  | [] => .error .noDigits
  | c :: cs =>
    if c = '+' || c = '-' then .error .sign
    else readOnto limit radix 0 (c :: cs)

theorem le_of_readOnto_eq_ok {limit : Nat} {radix : Radix} {value n : Nat} {cs : List Char}
    (hv : value ≤ limit) (h : readOnto limit radix value cs = .ok n) : n ≤ limit := by
  induction cs generalizing value with
  | nil => simp only [readOnto, Except.ok.injEq] at h; omega
  | cons c cs ih =>
    rw [readOnto] at h
    split at h
    · simp at h
    · split at h
      · simp at h
      · split at h
        · simp at h
        · exact ih (by omega) h

/-- What is read is within its limit. -/
theorem le_of_readDigits_eq_ok {limit : Nat} {radix : Radix} {n : Nat} {cs : List Char}
    (h : readDigits limit radix cs = .ok n) : n ≤ limit := by
  match cs with
  | [] => simp [readDigits] at h
  | c :: cs =>
    rw [readDigits] at h
    split at h
    · simp at h
    · exact le_of_readOnto_eq_ok (Nat.zero_le _) h

/-- Read the magnitude behind an optional name of its base. -/
def readMagnitude (cs : List Char) : Except Error Nat :=
  readDigits limit (Radix.split cs).1 (Radix.split cs).2

/-- Read a whole numeral. -/
def ofChars : List Char → Except Error Int
  | '-' :: cs => (readMagnitude cs).map fun n => -(n : Int)
  | cs => (readMagnitude cs).map fun n => (n : Int)

/-- Read a whole numeral. -/
def parse (s : String) : Except Error Int :=
  ofChars s.toList

end Numeral

end MacroAsm
