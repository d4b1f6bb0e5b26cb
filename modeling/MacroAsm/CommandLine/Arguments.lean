import MacroAsm.Config.Overrides

set_option autoImplicit false

/-! # Command line arguments

Arguments are read one by one, and the first that is wrong is reported. Long options stand behind two
dashes and take their value behind `=` or as the next argument; short options are letters behind one
dash, where the rest of the argument, with or without `=`, is the value of the first letter that
takes one. Behind `--` nothing is an option. Each option and the input file may be given once. -/

namespace MacroAsm

/-! ## Options -/

/-- An option that takes a value. -/
inductive Setting where
  | output
  | target
  | memorySize
  | memoryBlocks
  | stackSize
  | registerCount
  | exitLevel
  | templateDirectory
  | config
  deriving DecidableEq, Repr

/-- An option that takes no value. -/
inductive Switch where
  | dump
  | listTargets
  | help
  | version
  deriving DecidableEq, Repr

/-- An option. -/
inductive CommandOption where
  | setting (s : Setting)
  | switch (s : Switch)
  deriving DecidableEq, Repr

namespace CommandOption

/-- All options, in the order in which they are listed. -/
def all : List CommandOption :=
  [.setting .output, .setting .target, .setting .memorySize, .setting .memoryBlocks,
    .setting .stackSize, .setting .registerCount, .setting .exitLevel, .setting .templateDirectory,
    .setting .config, .switch .dump, .switch .listTargets, .switch .help, .switch .version]

/-- The name of an option behind two dashes. -/
def long : CommandOption → String
  | .setting .output => "output"
  | .setting .target => "target"
  | .setting .memorySize => "memory-size"
  | .setting .memoryBlocks => "memory-blocks"
  | .setting .stackSize => "stack-size"
  | .setting .registerCount => "register-count"
  | .setting .exitLevel => "exit-level"
  | .setting .templateDirectory => "template-dir"
  | .setting .config => "config"
  | .switch .dump => "dump"
  | .switch .listTargets => "list-targets"
  | .switch .help => "help"
  | .switch .version => "version"

/-- The letter of an option behind one dash. -/
def short? : CommandOption → Option Char
  | .setting .output => some 'o'
  | .setting .target => some 't'
  | .setting .exitLevel => some 'e'
  | .setting .config => some 'c'
  | .switch .dump => some 'd'
  | .switch .help => some 'h'
  | .switch .version => some 'V'
  | _ => none

/-- The option of a long name. -/
def ofLong? (name : String) : Option CommandOption :=
  all.find? fun o => o.long == name

/-- The option of a letter. -/
def ofShort? (letter : Char) : Option CommandOption :=
  all.find? fun o => o.short? == some letter

end CommandOption

/-! ## Errors -/

/-- What is wrong with the arguments. -/
inductive UsageError where
  | unknownOption (given : String)
  | missingValue (s : Setting)
  | unexpectedValue (s : Switch)
  | badValue (s : Setting) (given : String)
  | repeated (o : CommandOption)
  | emptyInput
  | secondInput (given : String)
  deriving DecidableEq, Repr

/-- The wording of an error. -/
def UsageError.message : UsageError → String
  | .unknownOption given => s!"unexpected argument '{given}' found"
  | .missingValue s => s!"a value is required for '--{(CommandOption.setting s).long}'"
  | .unexpectedValue s => s!"no value is allowed for '--{(CommandOption.switch s).long}'"
  | .badValue s given => s!"invalid value '{given}' for '--{(CommandOption.setting s).long}'"
  | .repeated o => s!"the argument '--{o.long}' cannot be used multiple times"
  | .emptyInput => "a value is required for '[INPUT]'"
  | .secondInput given => s!"unexpected argument '{given}' found"

/-- Why no more arguments are read. -/
inductive Halt where
  | help
  | version
  | misuse (e : UsageError)
  deriving DecidableEq, Repr

/-! ## Values -/

/-- What the arguments say. -/
structure Arguments where
  input : Option String
  flags : Overrides
  config : Option String
  dump : Bool
  listTargets : Bool
  deriving DecidableEq, Repr

namespace Arguments

/-- What no arguments say. -/
def none : Arguments :=
  ⟨.none, .none, .none, false, false⟩

/-- A path; it is not empty. -/
def path? (value : String) : Option String :=
  if value.isEmpty then .none else some value

/-- A size: decimal digits behind an optional plus. -/
def size? (value : String) : Option Nat :=
  let digits := match value.toList with
    | '+' :: cs => cs
    | cs => cs
  Config.digitsValue? .decimal digits

/-- Whether a setting has its value. -/
def has (a : Arguments) : Setting → Bool
  | .output => a.flags.output.isSome
  | .target => a.flags.target.isSome
  | .memorySize => a.flags.memorySize.isSome
  | .memoryBlocks => a.flags.memoryBlocks.isSome
  | .stackSize => a.flags.stackSize.isSome
  | .registerCount => a.flags.registerCount.isSome
  | .exitLevel => a.flags.exitLevel.isSome
  | .templateDirectory => a.flags.templateDirectory.isSome
  | .config => a.config.isSome

/-- The arguments with the value of a setting, if that is of the kind that the setting takes. -/
def with? (a : Arguments) (s : Setting) (value : String) : Option Arguments :=
  let flagged (f : Overrides) : Arguments := { a with flags := f }
  match s with
  | .output => (path? value).map fun v => flagged { a.flags with output := some v }
  | .target => some (flagged { a.flags with target := some value })
  | .memorySize => (size? value).map fun v => flagged { a.flags with memorySize := some v }
  | .memoryBlocks => (size? value).map fun v => flagged { a.flags with memoryBlocks := some v }
  | .stackSize => (size? value).map fun v => flagged { a.flags with stackSize := some v }
  | .registerCount => (size? value).map fun v => flagged { a.flags with registerCount := some v }
  | .exitLevel => (Level.ofKey? value).map fun v => flagged { a.flags with exitLevel := some v }
  | .templateDirectory =>
    (path? value).map fun v => flagged { a.flags with templateDirectory := some v }
  | .config => (path? value).map fun v => { a with config := some v }

/-- Give a setting its value. -/
def set (a : Arguments) (s : Setting) (value : String) : Except Halt Arguments :=
  if a.has s then .error (.misuse (.repeated (.setting s)))
  else match a.with? s value with
    | some a => .ok a
    | .none => .error (.misuse (.badValue s value))

/-- Turn a switch on. -/
def turnOn (a : Arguments) : Switch → Except Halt Arguments
  | .dump =>
    if a.dump then .error (.misuse (.repeated (.switch .dump))) else .ok { a with dump := true }
  | .listTargets =>
    if a.listTargets then .error (.misuse (.repeated (.switch .listTargets)))
    else .ok { a with listTargets := true }
  | .help => .error .help
  | .version => .error .version

/-- Name the input file. -/
def setInput (a : Arguments) (path : String) : Except Halt Arguments :=
  if a.input.isSome then .error (.misuse (.secondInput path))
  else if path.isEmpty then .error (.misuse .emptyInput)
  else .ok { a with input := some path }

/-! ## Reading -/

/-- What the next argument may be. -/
inductive Expected where
  | anything
  | valueOf (s : Setting)
  | inputOnly
  deriving DecidableEq, Repr

/-- The arguments read so far, and what comes next. -/
structure Reading where
  arguments : Arguments
  expected : Expected
  deriving DecidableEq, Repr

/-- Read a long option, given behind its dashes. -/
def readLong (a : Arguments) (given : List Char) : Except Halt Reading :=
  let name := String.ofList (given.takeWhile (· != '='))
  let value := match given.dropWhile (· != '=') with
    | [] => Option.none
    | _ :: value => some (String.ofList value)
  match CommandOption.ofLong? name, value with
  | .none, _ => .error (.misuse (.unknownOption s!"--{name}"))
  | some (.setting s), some value => do return ⟨← a.set s value, .anything⟩
  | some (.setting s), .none => .ok ⟨a, .valueOf s⟩
  | some (.switch s), some _ => .error (.misuse (.unexpectedValue s))
  | some (.switch s), .none => do return ⟨← a.turnOn s, .anything⟩

/-- Read short options, given behind their dash. -/
def readShort (a : Arguments) : List Char → Except Halt Reading
  | [] => .ok ⟨a, .anything⟩
  | letter :: rest =>
    match CommandOption.ofShort? letter with
    | .none => .error (.misuse (.unknownOption s!"-{letter}"))
    | some (.switch s) => do readShort (← a.turnOn s) rest
    | some (.setting s) =>
      match rest with
      | [] => .ok ⟨a, .valueOf s⟩
      | '=' :: value => do return ⟨← a.set s (String.ofList value), .anything⟩
      | value => do return ⟨← a.set s (String.ofList value), .anything⟩

/-- Read the next argument. A lone dash is no option, and an option is never a value. -/
def step (r : Reading) (given : String) : Except Halt Reading :=
  let a := r.arguments
  let isOption := match given.toList with
    | '-' :: _ :: _ => true
    | _ => false
  match r.expected with
  | .inputOnly => do return ⟨← a.setInput given, .inputOnly⟩
  | .valueOf s =>
    if isOption then .error (.misuse (.missingValue s))
    else do return ⟨← a.set s given, .anything⟩
  | .anything =>
    match given.toList with
    | ['-', '-'] => .ok ⟨a, .inputOnly⟩
    | '-' :: '-' :: name => a.readLong name
    | '-' :: c :: letters => a.readShort (c :: letters)
    | _ => do return ⟨← a.setInput given, .anything⟩

/-- Read all arguments. -/
def ofList (given : List String) : Except Halt Arguments := do
  let r ← given.foldlM step ⟨none, .anything⟩
  match r.expected with
  | .valueOf s => .error (.misuse (.missingValue s))
  | _ => return r.arguments

end Arguments

end MacroAsm
