import MacroAsm.Target.Target

set_option autoImplicit false

/-! # Output files

A program is written to one file, named by the output option and the extension of the target. The
directories that lead to it are made where they are missing. -/

namespace MacroAsm

/-- The path of an output file. -/
def outputPath (output extension : String) : String :=
  output ++ "." ++ extension

/-- Make the directory that a file will lie in, if its path names one. -/
def makeParent (tree : FileTree) (path : String) : FileTree × Except Failure Unit :=
  match (Path.parent? path).filter (fun d => !d.isEmpty) with
  | none => (tree, .ok ())
  | some directory =>
    match tree.makeDirectories directory with
    | (tree, none) => (tree, .ok ())
    | (tree, some cause) => (tree, .error (.cannotCreate directory cause))

/-- Write a text to a file, in a directory that is made where it is missing. -/
def writeOutput (tree : FileTree) (path text : String) : FileTree × Except Failure String :=
  match makeParent tree path with
  | (tree, .error e) => (tree, .error e)
  | (tree, .ok ()) =>
    match tree.write path text with
    | .ok tree => (tree, .ok path)
    | .error cause => (tree, .error (.cannotWrite path cause))

/-- Write a program as the target that the options name, and yield the path of the file. -/
def Program.emit (p : Program) (tree : FileTree) (o : Options) : FileTree × Except Failure String :=
  match Target.find o.target with
  | .error e => (tree, .error e)
  | .ok target =>
    match target.render tree o p with
    | .error e => (tree, .error e)
    | .ok text => writeOutput tree (outputPath o.output target.fileExtension) text

end MacroAsm
