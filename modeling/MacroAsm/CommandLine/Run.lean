import MacroAsm.CommandLine.Usage
import MacroAsm.Compilation
import MacroAsm.Program.Dump
import MacroAsm.Target.Output

set_option autoImplicit false

/-! # Running the program

A run takes its arguments and the files, and yields an exit code, what it prints and the files as it
leaves them. It never changes a file other than its output, and that only as its last step. -/

namespace MacroAsm

/-- How a run ends. -/
structure Outcome where
  exitCode : Nat
  output : String
  errors : String
  tree : FileTree

namespace Run

/-- The configuration file that is used where none is named. -/
def configName : String := "mccpu.yaml"

/-! ## Printed texts -/

/-- The first line of every run. -/
def banner : String :=
  Style.apply [.bold] "MCCPU Compiler" ++ s!" {Usage.version} by {Usage.maker}\n"

/-- The line about a target. -/
def targetLine (t : Target) : String :=
  let names := String.intercalate ", " t.aliases
  s!"  {Text.padEnd 10 t.id} .{Text.padEnd 6 t.fileExtension} {names}\n"

/-- Some words that tell of an error. -/
def alarm (words : String) : String :=
  Style.apply [.red, .bold] words

/-- The line about an input that is no file. -/
def missingInput (path : String) : String :=
  alarm "error" ++ s!": input file `{path}` does not exist\n"

/-- A failure with its cause. -/
def failureText (e : Failure) : String :=
  let cause := match e.cause? with
    | some cause => "     " ++ Style.apply [.blue] "=" ++ s!" caused by: {cause}\n"
    | none => ""
  alarm "error" ++ s!": {e.message}\n{cause}"

/-- The standing of a compilation in its colour. -/
def statusText (status : Level) : String :=
  let colour := match status with
    | .error => Style.red
    | .warning => Style.yellow
    | _ => Style.green
  s!"  status: {Style.apply [colour, .bold] status.label}\n"

/-- What is printed about a compilation, with its program where that is asked for. -/
def compilationText (dump : Bool) (c : Compilation) : String :=
  let program := match c.program with
    | some p => if dump then p.dump else ""
    | none => ""
  c.report.shown ++ statusText c.report.status ++ program

/-! ## Steps -/

/-- The overrides of the configuration file: the one that is named, or the usual one if it is there. -/
def configOf (tree : FileTree) (a : Arguments) : Except Failure (Option Overrides) :=
  match a.config with
  | some path => (Overrides.load tree path).map some
  | none =>
    if tree.isFile configName then (Overrides.load tree configName).map some else .ok none

/-- The options that hold for a run, checked. -/
def optionsOf (tree : FileTree) (a : Arguments) (input : String) : Except Failure Options := do
  let file ← configOf tree a
  let o := Options.merge input file a.flags
  o.validate
  let _ ← Target.find o.target
  return o

/-- The end of a run after what was printed up to then. -/
def failed (tree : FileTree) (printed : String) (e : Failure) : Outcome :=
  ⟨1, printed ++ failureText e, "", tree⟩

/-- Write the program of a compilation, unless there is none or the exit level was reached. -/
def emitted (tree : FileTree) (o : Options) (printed : String) (c : Compilation) : Outcome :=
  let code := c.exitCode o.exitLevel
  if c.report.reached o.exitLevel then
    let line := alarm "Compilation stopped" ++ s!": exit level {o.exitLevel.label} reached\n"
    ⟨code, printed ++ line, "", tree⟩
  else match c.program with
    | none => ⟨code, printed ++ alarm "Compilation failed" ++ "\n", "", tree⟩
    | some p =>
      let printed := s!"{printed}2. Emit `{o.target}`\n"
      match p.emit tree o with
      | (tree, .ok path) => ⟨code, s!"{printed}  > {path}\n", "", tree⟩
      | (tree, .error e) => failed tree printed e

/-- Compile an input file. -/
def compile (tree : FileTree) (a : Arguments) (input : String) : Outcome :=
  match optionsOf tree a input with
  | .error e => failed tree banner e
  | .ok o =>
    let printed := s!"{banner}1. Compile\n  < {input}\n"
    match Compilation.ofFile tree input o with
    | .error e => failed tree printed e
    | .ok c => emitted tree o (printed ++ compilationText a.dump c) c

/-- Do what the arguments say. -/
def withArguments (tree : FileTree) (a : Arguments) : Outcome :=
  if a.listTargets then ⟨0, banner ++ String.join (Target.all.map targetLine), "", tree⟩
  else match a.input with
    | none => ⟨0, banner ++ "No input file given, see --help\n", "", tree⟩
    | some input =>
      if tree.isFile input then compile tree a input
      else ⟨1, banner ++ missingInput input, "", tree⟩

end Run

/-- Run the program with some arguments on some files. -/
def run (tree : FileTree) (arguments : List String) : Outcome :=
  match Arguments.ofList arguments with
  | .ok a => Run.withArguments tree a
  | .error .help => ⟨0, Usage.help, "", tree⟩
  | .error .version => ⟨0, Usage.versionLine, "", tree⟩
  | .error (.misuse e) => ⟨2, "", Usage.complaint e, tree⟩

end MacroAsm
