set_option autoImplicit false

/-! # Terminal styles

Emphasis and colour on a terminal: each style is switched on by one escape sequence and off by
another, and several are switched off in the order in which they were switched on. -/

namespace MacroAsm

/-- Emphasis or colour. -/
inductive Style where
  | bold
  | dim
  | underline
  | red
  | green
  | yellow
  | blue
  | cyan
  deriving DecidableEq, Repr

namespace Style

/-- The escape sequence that switches a style on. -/
def on : Style → String
  | .bold => "\x1b[1m"
  | .dim => "\x1b[2m"
  | .underline => "\x1b[4m"
  | .red => "\x1b[31m"
  | .green => "\x1b[32m"
  | .yellow => "\x1b[33m"
  | .blue => "\x1b[34m"
  | .cyan => "\x1b[36m"

/-- The escape sequence that switches a style off. -/
def off : Style → String
  | .bold | .dim => "\x1b[22m"
  | .underline => "\x1b[24m"
  | .red | .green | .yellow | .blue | .cyan => "\x1b[39m"

/-- A text in some styles. -/
def apply (styles : List Style) (s : String) : String :=
  String.join (styles.map on) ++ s ++ String.join (styles.map off)

end Style

end MacroAsm
