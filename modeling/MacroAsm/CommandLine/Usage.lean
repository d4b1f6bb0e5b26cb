import MacroAsm.CommandLine.Arguments
import MacroAsm.Text.Column

set_option autoImplicit false

/-! # Usage

The texts that tell how the program is called. -/

namespace MacroAsm.Usage

/-- The name of the program. -/
def program : String := "mccpu"

/-- The version of the program. -/
def version : String := "0.1.0"

/-- Who made the program. -/
def maker : String := "FireDragon91245"

/-- What the program is. -/
def about : String := "Macro assembler and multi-target code generator for the MCCPU"

/-- What the value of a setting is called. -/
def valueName (s : Setting) : String :=
  (CommandOption.setting s).long.map fun c => if c == '-' then '_' else c.toUpper

/-- What an option does. -/
def purpose : CommandOption → String
  | .setting .output => "Output file without extension [default: <input>.out]"
  | .setting .target => "Language target, see --list-targets"
  | .setting .memorySize => "Emulated memory size in bytes"
  | .setting .memoryBlocks => "Number of memory banks used by balanced layouts"
  | .setting .stackSize => "Emulated stack size in bytes"
  | .setting .registerCount => "Number of registers"
  | .setting .exitLevel => "Stop when a message of this level is reported [possible values: " ++
      String.intercalate ", " (Level.all.map Level.key) ++ "]"
  | .setting .templateDirectory => "Directory with templates overriding the built-in ones"
  | .setting .config => "YAML config file [default: ./mccpu.yaml when present]"
  | .switch .dump => "Dump the compiled program"
  | .switch .listTargets => "List language targets and exit"
  | .switch .help => "Print help"
  | .switch .version => "Print version"

/-- An option as it is called. -/
def call (o : CommandOption) : String :=
  let letter := match o.short? with
    | some c => s!"-{c}, "
    | none => "    "
  match o with
  | .setting s => s!"{letter}--{o.long} <{valueName s}>"
  | .switch _ => s!"{letter}--{o.long}"

/-- The width of the widest call. -/
def callWidth : Nat :=
  (CommandOption.all.map fun o => (call o).length).foldl max 0

/-- The text that tells how the program is called. -/
def help : String :=
  let options := CommandOption.all.map fun o =>
    s!"  {Text.padEnd callWidth (call o)}  {purpose o}\n"
  s!"{program} {version}\n  {maker}\n  {about}\n\nUsage: {program} [OPTIONS] [INPUT]\n\n" ++
    "Arguments:\n  [INPUT]  Main source file\n\nOptions:\n" ++ String.join options

/-- The text that tells the version. -/
def versionLine : String := s!"{program} {version}\n"

/-- The text about wrong arguments. -/
def complaint (e : UsageError) : String :=
  s!"error: {e.message}\n\nUsage: {program} [OPTIONS] [INPUT]\n\n" ++
    "For more information, try '--help'.\n"

end MacroAsm.Usage
