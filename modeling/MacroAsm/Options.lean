import MacroAsm.Diagnostics.Level
import MacroAsm.Failure

set_option autoImplicit false

/-! # Options

What a compilation is told besides the source: the target, the sizes of the machine, when to stop and
where the output goes. Options begin as defaults, which a configuration file and then the command
line may override one by one. -/

namespace MacroAsm

/-- The options of a compilation. The output is a path to which the target adds its extension. -/
structure Options where
  target : String
  memorySize : Nat
  memoryBlocks : Nat
  stackSize : Nat
  registerCount : Nat
  exitLevel : Level
  output : String
  templateDirectory : Option String
  deriving DecidableEq, Repr

/-- Values for some of the options. -/
structure Overrides where
  target : Option String
  memorySize : Option Nat
  memoryBlocks : Option Nat
  stackSize : Option Nat
  registerCount : Option Nat
  exitLevel : Option Level
  output : Option String
  templateDirectory : Option String
  deriving DecidableEq, Repr

/-- Overrides that change nothing. -/
def Overrides.none : Overrides :=
  ⟨.none, .none, .none, .none, .none, .none, .none, .none⟩

namespace Options

/-- The options that hold unless something else is said. -/
def default : Options where
  target := "mccpu"
  memorySize := 256
  memoryBlocks := 8
  stackSize := 64
  registerCount := 16
  exitLevel := .error
  output := "out"
  templateDirectory := none

/-- Options with some of them overridden. -/
def override (o : Options) (c : Overrides) : Options where
  target := c.target.getD o.target
  memorySize := c.memorySize.getD o.memorySize
  memoryBlocks := c.memoryBlocks.getD o.memoryBlocks
  stackSize := c.stackSize.getD o.stackSize
  registerCount := c.registerCount.getD o.registerCount
  exitLevel := c.exitLevel.getD o.exitLevel
  output := c.output.getD o.output
  templateDirectory := c.templateDirectory <|> o.templateDirectory

/-- The options for an input file: the output is named after it, then the configuration file and then
    the command line override what they set. -/
def merge (input : String) (file : Option Overrides) (flags : Overrides) : Options :=
  let start := { default with output := Path.withExtension input "out" }
  ((file.map start.override).getD start).override flags

/-- Whether a number is at least one and at most a limit. -/
def inSize (limit n : Nat) : Bool :=
  1 ≤ n && n ≤ limit

/-- Check the sizes and the output; the first that is wrong is reported. -/
def validate (o : Options) : Except Failure Unit :=
  if !inSize 65536 o.memorySize then .error (.badSetting (.memorySize o.memorySize))
  else if !inSize o.memorySize o.memoryBlocks then
    .error (.badSetting (.memoryBlocks o.memorySize o.memoryBlocks))
  else if !inSize 65536 o.stackSize then .error (.badSetting (.stackSize o.stackSize))
  else if !inSize 256 o.registerCount then .error (.badSetting (.registerCount o.registerCount))
  else if o.output.isEmpty then .error (.badSetting .emptyOutput)
  else .ok ()

/-- The sizes are in their limits, and there is an output. -/
structure Valid (o : Options) : Prop where
  memorySize : 1 ≤ o.memorySize ∧ o.memorySize ≤ 65536
  memoryBlocks : 1 ≤ o.memoryBlocks ∧ o.memoryBlocks ≤ o.memorySize
  stackSize : 1 ≤ o.stackSize ∧ o.stackSize ≤ 65536
  registerCount : 1 ≤ o.registerCount ∧ o.registerCount ≤ 256
  output : o.output.isEmpty = false

theorem inSize_iff {limit n : Nat} : inSize limit n = true ↔ 1 ≤ n ∧ n ≤ limit := by
  simp [inSize]

/-- Checks pass when the first one and all others do. -/
theorem check_eq_ok_iff {passed : Bool} {e : Failure} {rest : Except Failure Unit} :
    (if !passed then .error e else rest) = .ok () ↔ passed = true ∧ rest = .ok () := by
  cases passed <;> simp

/-- The check fails on all options but the valid ones. -/
theorem validate_eq_ok_iff {o : Options} : o.validate = .ok () ↔ o.Valid := by
  have houtput : o.output.isEmpty = !!o.output.isEmpty := (Bool.not_not _).symm
  unfold validate
  rw [check_eq_ok_iff, check_eq_ok_iff, check_eq_ok_iff, check_eq_ok_iff, houtput, check_eq_ok_iff]
  simp only [inSize_iff, Bool.not_eq_true', and_true]
  exact ⟨fun ⟨hm, hb, hs, hr, ho⟩ => ⟨hm, hb, hs, hr, ho⟩,
    fun h => ⟨h.memorySize, h.memoryBlocks, h.stackSize, h.registerCount, h.output⟩⟩

end Options

end MacroAsm
