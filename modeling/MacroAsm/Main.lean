import MacroAsm.CommandLine.Run

set_option autoImplicit false

/-! # The program

Everything is decided by `run`. What is left here is to read the files that a run may look at, to
write those that it changed, and to print. The files are those below the working directory and
beside every file that an argument names elsewhere; links are followed only where an argument leads
through them. -/

namespace MacroAsm.Disk

/-- How many directories may lie within one another. -/
def depth : Nat := 64

/-- The location of an absolute path. -/
def locationOf (path : String) : Location :=
  (path.splitOn "/").filter fun name => !name.isEmpty

/-- The absolute path of a location. -/
def pathOf (at' : Location) : String :=
  "/" ++ String.intercalate "/" at'

/-- The directories on the way to a location, with the location itself. -/
def wayTo (at' : Location) : List (Location × Node) :=
  (List.range at'.length).map fun n => (at'.take (n + 1), Node.directory)

/-- Read all that lies in a directory, down to a depth. What cannot be read is left out. -/
def readBelow : Nat → Location → IO (List (Location × Node))
  | 0, _ => return []
  | n + 1, directory => do
    let place ← IO.FS.realPath (pathOf directory)
    let entries ← try place.readDir catch _ => pure #[]
    let found ← entries.toList.mapM fun entry => do
      let at' := directory ++ [entry.fileName]
      try
        match (← entry.path.symlinkMetadata).type with
        | .dir => return (at', Node.directory) :: (← readBelow n at')
        | .file =>
          return [(at', Node.file (String.fromUTF8? (← IO.FS.readBinFile entry.path)))]
        | _ => return []
      catch _ => return []
    return found.flatten

/-- The directory of a file that an argument may name outside a directory. -/
def outside? (directory : Location) (argument : String) : IO (Option Location) := do
  match Path.parent? argument with
  | none => return none
  | some parent =>
    try
      let found := locationOf (← IO.FS.realPath (if parent.isEmpty then "." else parent)).toString
      return if directory.isPrefixOf found then none else some found
    catch _ => return none

/-- The files that a run with some arguments may look at. -/
def read (arguments : List String) : IO FileTree := do
  let here := locationOf (← IO.currentDir).toString
  let others := (← arguments.mapM (outside? here)).filterMap id
  let nodes ← (here :: others.eraseDups).mapM fun directory => do
    return wayTo directory ++ (← readBelow depth directory)
  return ⟨here, nodes.flatten⟩

/-- Make the changes that lead from one tree to another. -/
def write (before after : FileTree) : IO Unit := do
  for (at', node) in after.nodes do
    if !before.nodes.contains (at', node) then
      match node with
      | .directory => IO.FS.createDirAll (pathOf at')
      | .file (some text) => IO.FS.writeFile (pathOf at') text
      | .file none => pure ()

end MacroAsm.Disk

/-- Run the program on the files of this machine. -/
def main (arguments : List String) : IO UInt32 := do
  let tree ← MacroAsm.Disk.read arguments
  let outcome := MacroAsm.run tree arguments
  MacroAsm.Disk.write tree outcome.tree
  IO.print outcome.output
  IO.eprint outcome.errors
  return UInt32.ofNat outcome.exitCode
