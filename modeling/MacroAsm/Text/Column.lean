set_option autoImplicit false

/-! # Columns

Texts and numbers brought to a least width, counted in characters. -/

namespace MacroAsm.Text

/-- A text with spaces in front of it up to a width. -/
def padStart (width : Nat) (s : String) : String :=
  String.ofList (List.replicate (width - s.length) ' ') ++ s

/-- A text with spaces behind it up to a width. -/
def padEnd (width : Nat) (s : String) : String :=
  s ++ String.ofList (List.replicate (width - s.length) ' ')

/-- A number in hexadecimal with capital letters, and zeros in front of it up to a width. -/
def hex (width n : Nat) : String :=
  let digits := (Nat.toDigits 16 n).map Char.toUpper
  String.ofList (List.replicate (width - digits.length) '0' ++ digits)

end MacroAsm.Text
