import MacroAsm.Files.Tree

set_option autoImplicit false

/-! # Failures

What ends a compilation at once, apart from what a report holds: files that cannot be used, settings
that make no sense, templates without a place for the code. -/

namespace MacroAsm

/-- A setting that is refused. -/
inductive SettingError where
  | memorySize (given : Nat)
  | memoryBlocks (most given : Nat)
  | stackSize (given : Nat)
  | registerCount (given : Nat)
  | emptyOutput
  | noTemplate (file : String)
  deriving DecidableEq, Repr

/-- The wording of a refused setting. -/
def SettingError.message : SettingError → String
  | .memorySize given => s!"memory size must be in 1..=65536, got {given}"
  | .memoryBlocks most given => s!"memory blocks must be in 1..={most}, got {given}"
  | .stackSize given => s!"stack size must be in 1..=65536, got {given}"
  | .registerCount given => s!"register count must be in 1..=256, got {given}"
  | .emptyOutput => "output file must not be empty"
  | .noTemplate file => s!"no template named `{file}`"

/-- What ends a compilation at once. -/
inductive Failure where
  | cannotOpen (path : String) (cause : FileCause)
  | cannotRead (path : String) (cause : FileCause)
  | cannotCreate (path : String) (cause : FileCause)
  | cannotWrite (path : String) (cause : FileCause)
  | badConfig (path cause : String)
  | badSetting (e : SettingError)
  | unknownTarget (name : String) (known : List String)
  | templateWithoutCode (name : String)
  deriving DecidableEq, Repr

namespace Failure

/-- The wording of a failure. -/
def message : Failure → String
  | .cannotOpen path _ => s!"Failed to open file: {path}"
  | .cannotRead path _ => s!"Failed to read line of {path}"
  | .cannotCreate path _ => s!"Failed to create file: {path}"
  | .cannotWrite path _ => s!"Failed to write file: {path}"
  | .badConfig path _ => s!"Failed to parse config file: {path}"
  | .badSetting e => s!"Invalid argument: {e.message}"
  | .unknownTarget name known =>
    s!"Unknown target: `{name}`, known targets are [" ++ String.intercalate ", " known ++ "]"
  | .templateWithoutCode name => s!"Template `{name}` has no %code placeholder"

/-- The wording of what lies behind a failure, if anything does. -/
def cause? : Failure → Option String
  | .cannotOpen _ c | .cannotRead _ c | .cannotCreate _ c | .cannotWrite _ c => some c.message
  | .badConfig _ c => some c
  | .badSetting _ | .unknownTarget _ _ | .templateWithoutCode _ => none

end Failure

end MacroAsm
