import MacroAsm.Target.CFamily
import MacroAsm.Target.Nasm
import MacroAsm.Target.Native
import MacroAsm.Template.Builtin
import MacroAsm.Text.Case

set_option autoImplicit false

/-! # Targets

What a program can be written as. A target is named by its id or by another of its names, in any
case, and has the extension that its output files get. -/

namespace MacroAsm

/-- What a program is written as. -/
inductive Target where
  | native
  | annotated
  | c
  | csharp
  | nasm
  deriving DecidableEq, Repr

namespace Target

/-- All targets, in the order in which they are listed. -/
def all : List Target :=
  [.native, .annotated, .c, .csharp, .nasm]

/-- The name of a target. -/
def id : Target → String
  | .native => "mccpu"
  | .annotated => "mccpuall"
  | .c => "c"
  | .csharp => "csharp"
  | .nasm => "nasm-x64"

/-- The extension of the output files of a target. -/
def fileExtension : Target → String
  | .native | .annotated => "mccpu"
  | .c => "c"
  | .csharp => "cs"
  | .nasm => "asm"

/-- Other names of a target. -/
def aliases : Target → List String
  | .native | .annotated | .c => []
  | .csharp => ["c#", "cs"]
  | .nasm => ["nasm"]

/-- The target of a name, blanks around it and its case left aside. -/
def find (name : String) : Except Failure Target :=
  let key := String.ofList (Text.lower (Text.trim name.toList))
  match all.find? (fun t => t.id == key || t.aliases.contains key) with
  | some t => .ok t
  | none => .error (.unknownTarget name (all.map id))

/-- Put code in the frame of a template. -/
def framed (tree : FileTree) (o : Options) (file code : String) : Except Failure String :=
  match Template.load tree file o.templateDirectory with
  | .ok t => .ok (t.render (.ofOptions o code))
  | .error e => .error e

/-- A program written as a target. -/
def render (t : Target) (tree : FileTree) (o : Options) (p : Program) : Except Failure String :=
  match t with
  | .native => .ok p.nativeText
  | .annotated => .ok p.annotatedText
  | .c => framed tree o "C.c" (CFamily.code .c p)
  | .csharp => framed tree o "CSharp.cs" (CFamily.code .csharp p)
  | .nasm => framed tree o "nasm-x64.asm" (Nasm.code p)

end Target

end MacroAsm
