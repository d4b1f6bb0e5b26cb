import MacroAsm.Diagnostics.Report
import MacroAsm.Source.Line
import MacroAsm.Text.Cut

set_option autoImplicit false

/-! # Included files

A line `#includemacrofile <a> <b>` names files, each searched from the directory of the file that
the line stands in. All files that can be reached so are loaded, each once and in the order in which
they are first met, the files named by a file right after that file.

The search keeps a list of what is still to be looked at. It ends because each step either shortens
that list or loads one of the finitely many files. -/

namespace MacroAsm

namespace Includes

/-! ## Names in a file -/

/-- The name that includes files. -/
def directiveName : String := "includemacrofile"

/-- Read a name behind its opening bracket: no brackets and no blanks, up to the closing one. -/
def readName? (cs : List Char) : Option (List Char × List Char) :=
  match Text.readRun? (fun c => c != '<' && c != '>' && !Text.isBlank c) cs with
  | some (name, '>' :: rest) => some (name, rest)
  | _ => none

/-- The names in brackets in a text. -/
def namesIn (s : String) : List String :=
  (Text.Cut.ofChars '<' readName? s.toList).tokens.map String.ofList

/-- What a file asks for: a name to be searched from its directory, or an error to be reported. -/
inductive Request where
  | name (directory : String) (line : Line) (name : String)
  | empty (line : Line)
  deriving DecidableEq, Repr

/-- What one line of a file asks for. -/
def requestsOf (directory : String) (l : Line) : List Request :=
  match l.directive? with
  | some d =>
    if d.name = directiveName then
      match namesIn d.rest with
      | [] => [.empty l]
      | names => names.map (Request.name directory l)
    else []
  | none => []

/-- What a file asks for, in the order of its lines. -/
def requests (path : String) (lines : List Line) : List Request :=
  lines.flatMap (requestsOf ((Path.parent? path).getD "."))

/-! ## Searching -/

/-- Where a name is searched, in this order. -/
def candidates (directory name : String) : List String :=
  [Path.join (Path.join directory "macrodefs") (name ++ ".mccpu"),
   Path.join directory (name ++ ".mccpu"),
   Path.join directory name]

/-- The first candidate that is a file. -/
def find? (t : FileTree) (directory name : String) : Option String :=
  (candidates directory name).find? t.isFile

/-- No name follows the directive. -/
def emptyMessage (l : Line) : Message :=
  .about .error "#includemacrofile expects one or more <name>" l.position

/-- A name leads to no file. -/
def missingMessage (directory : String) (l : Line) (name : String) : Message :=
  (Message.about .error s!"Macro file `{name}` was not found" l.position).withNote
    s!"searched {directory}/macrodefs/{name}.mccpu, {directory}/{name}.mccpu and {directory}/{name}"
    none

/-! ## Collecting -/

/-- An included file: its path as it was built, its location and its lines. -/
structure Loaded where
  path : String
  location : Location
  lines : List Line

/-- Files loaded so far, and what was reported. -/
structure Collection where
  files : Array Loaded
  report : Report

/-- The files that are not among some locations. -/
def unseen (t : FileTree) (seen : List Location) : List Location :=
  t.fileLocations.filter fun l => l ∉ seen

theorem unseen_cons (t : FileTree) (l : Location) (seen : List Location) :
    unseen t (l :: seen) = (unseen t seen).filter fun k => k ≠ l := by
  simp only [unseen, List.filter_filter]
  congr 1
  funext k
  simp only [List.mem_cons, not_or, Bool.decide_and]

/-- Seeing one more file leaves fewer unseen. -/
theorem length_unseen_lt {t : FileTree} {seen : List Location} {l : Location}
    (hl : l ∈ t.fileLocations) (hs : l ∉ seen) :
    (unseen t (l :: seen)).length < (unseen t seen).length := by
  rw [unseen_cons]
  refine List.length_filter_lt_length_iff_exists.2 ⟨l, ?_, by simp⟩
  exact List.mem_filter.2 ⟨hl, by simpa using hs⟩

/-- The root of an inclusion, which is never included itself: its location, or its path where that
    leads nowhere. -/
inductive Root where
  | located (l : Location)
  | unlocated (path : String)

/-- The root that a path names. -/
def Root.of (t : FileTree) (path : String) : Root :=
  match t.lookup path with
  | .ok (l, _) => .located l
  | .error _ => .unlocated path

/-- Whether a file that was found is the root. A root that leads nowhere is told by the names of its
    path. -/
def Root.isFile (r : Root) (path : String) (l : Location) : Bool :=
  match r with
  | .located k => k == l
  | .unlocated root => Path.sameParts root path

/-- Serve what is still asked for. `seen` holds the locations of all loaded files. -/
def serve (t : FileTree) (root : Root) (seen : List Location) (c : Collection) :
    List Request → Except Failure Collection
  | [] => .ok c
  | .empty l :: rest => serve t root seen { c with report := c.report.push (emptyMessage l) } rest
  | .name directory l name :: rest =>
    match find? t directory name with
    | none =>
      serve t root seen { c with report := c.report.push (missingMessage directory l name) } rest
    | some path =>
      match hl : t.fileLocation? path with
      | none => serve t root seen c rest
      | some location =>
        if root.isFile path location then serve t root seen c rest
        else if hs : location ∈ seen then serve t root seen c rest
        else
          have := length_unseen_lt (FileTree.mem_fileLocations hl) hs
          match Line.load t path with
          | .error e => .error e
          | .ok lines =>
            serve t root (location :: seen)
              { c with files := c.files.push ⟨path, location, lines⟩ }
              (requests path lines ++ rest)
termination_by pending => ((unseen t seen).length, pending.length)

/-- All files that a root file reaches, in the order of their discovery, and what was reported. -/
def collect (t : FileTree) (root : String) (lines : List Line) : Except Failure Collection :=
  serve t (.of t root) [] ⟨#[], Report.empty⟩ (requests root lines)

end Includes

end MacroAsm
