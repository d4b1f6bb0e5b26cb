import MacroAsm.Text.Blank

set_option autoImplicit false

/-! # Levels

How grave a message is, how a whole compilation stands, and at which messages it stops. The levels
are ordered; `ok` is only ever the standing of a compilation without messages, and `none` only an
exit level that nothing reaches. -/

namespace MacroAsm

/-- Levels, least grave first. -/
inductive Level where
  | info
  | ok
  | warning
  | error
  | none
  deriving DecidableEq, Repr

namespace Level

/-- All levels, least grave first. -/
def all : List Level :=
  [.info, .ok, .warning, .error, .none]

/-- The place of a level in the order. -/
def rank : Level → Nat
  | .info => 0
  | .ok => 1
  | .warning => 2
  | .error => 3
  | .none => 4

instance : LE Level := ⟨fun a b => a.rank ≤ b.rank⟩

instance (a b : Level) : Decidable (a ≤ b) := inferInstanceAs (Decidable (a.rank ≤ b.rank))

theorem le_def {a b : Level} : a ≤ b ↔ a.rank ≤ b.rank := Iff.rfl

/-- The graver of two levels. -/
def max (a b : Level) : Level :=
  if a ≤ b then b else a

/-- The name of a level in messages. -/
def label : Level → String
  | .info => "INFO"
  | .ok => "OK"
  | .warning => "WARNING"
  | .error => "ERROR"
  | .none => "NONE"

/-- The name of a level in settings. -/
def key : Level → String
  | .info => "info"
  | .ok => "ok"
  | .warning => "warning"
  | .error => "error"
  | .none => "none"

/-- A text names no level. -/
structure Unknown where
  text : String
  deriving DecidableEq, Repr

/-- The wording of the error. -/
def Unknown.message (e : Unknown) : String :=
  s!"invalid variant: {e.text}"

/-- The level with exactly this name. -/
def ofKey? (s : String) : Option Level :=
  all.find? fun l => l.key == s

/-- The level of a name, blanks around it and the case of ASCII letters left aside. -/
def parse (s : String) : Except Unknown Level :=
  let name := Text.trim s.toList
  match all.find? (fun l => l.key.toList == name.map Char.toLower) with
  | some l => .ok l
  | Option.none => .error ⟨String.ofList name⟩

end Level

end MacroAsm
