import MacroAsm.Files.Path

set_option autoImplicit false

/-! # File trees

What a compilation can see of a file system: directories and files, each at one location, and the
directory from which relative paths start. A location is a list of names from the root, so two
spellings of a path name the same file exactly when they lead to the same location.

A file holds a text, or bytes that are none. Operations fail with the cause that the system gives. -/

namespace MacroAsm

/-- Why the system refuses an operation on a path. -/
inductive FileCause where
  | notFound
  | exists
  | notDirectory
  | isDirectory
  | nameTooLong
  | badName
  | notText
  deriving DecidableEq, Repr

/-- The wording of a cause. -/
def FileCause.message : FileCause → String
  | .notFound => "No such file or directory (os error 2)"
  | .exists => "File exists (os error 17)"
  | .notDirectory => "Not a directory (os error 20)"
  | .isDirectory => "Is a directory (os error 21)"
  | .nameTooLong => "File name too long (os error 36)"
  | .badName => "file name contained an unexpected NUL byte"
  | .notText => "stream did not contain valid UTF-8"

/-- A location: the names that lead to it from the root. -/
abbrev Location := List String

/-- What is at a location. The content of a file is missing where its bytes are no text. -/
inductive Node where
  | directory
  | file (content : Option String)
  deriving DecidableEq, Repr

/-- Directories and files by location, and the working directory. The root is always there. -/
structure FileTree where
  workingDirectory : Location
  nodes : List (Location × Node)
  deriving DecidableEq, Repr

namespace FileTree

/-! ## Looking up -/

/-- What is at a location. -/
def node? (t : FileTree) (at' : Location) : Option Node :=
  if at' = [] then some .directory
  else (t.nodes.find? fun n => n.1 == at').map Prod.snd

/-- The most bytes that the name of a file may have. -/
def maxNameSize : Nat := 255

/-- The size at which a path is too long. -/
def maxPathSize : Nat := 4096

/-- Follow names from a location. Each name is looked up in a directory; the last one need not be
    there. -/
def walk (t : FileTree) (at' : Location) : List (List Char) → Except FileCause Location
  | [] => .ok at'
  | name :: rest =>
    match t.node? at' with
    | none => .error .notFound
    | some (.file _) => .error .notDirectory
    | some .directory =>
      if Path.isFiller name then t.walk at' rest
      else if name = ['.', '.'] then t.walk at'.dropLast rest
      else if maxNameSize < (String.ofList name).utf8ByteSize then .error .nameTooLong
      else t.walk (at' ++ [String.ofList name]) rest

/-- The location that a path names, if the directories on the way are there. -/
def locate (t : FileTree) (path : String) : Except FileCause Location :=
  if path = "" then .error .notFound
  else if path.toList.contains '\x00' then .error .badName
  else if maxPathSize ≤ path.utf8ByteSize then .error .nameTooLong
  else t.walk (if Path.isAbsolute path then [] else t.workingDirectory) (Path.names path).reverse

/-- What a path names, with its location. -/
def lookup (t : FileTree) (path : String) : Except FileCause (Location × Node) :=
  match t.locate path with
  | .error e => .error e
  | .ok at' =>
    match t.node? at' with
    | none => .error .notFound
    | some n => .ok (at', n)

/-- The location of the file that a path names, if it names a file. -/
def fileLocation? (t : FileTree) (path : String) : Option Location :=
  match t.lookup path with
  | .ok (at', .file _) => some at'
  | _ => none

/-- Whether a path names a file. -/
def isFile (t : FileTree) (path : String) : Bool :=
  (t.fileLocation? path).isSome

/-- Whether a path names a directory. -/
def isDirectory (t : FileTree) (path : String) : Bool :=
  match t.lookup path with
  | .ok (_, .directory) => true
  | _ => false

/-- The text of the file that a path names. -/
def read (t : FileTree) (path : String) : Except FileCause String :=
  match t.lookup path with
  | .error e => .error e
  | .ok (_, .directory) => .error .isDirectory
  | .ok (_, .file none) => .error .notText
  | .ok (_, .file (some text)) => .ok text

/-- The locations of all files. -/
def fileLocations (t : FileTree) : List Location :=
  t.nodes.filterMap fun n =>
    match n.2 with
    | .file _ => some n.1
    | .directory => none

/-- A file that is found is one of the files. -/
theorem mem_fileLocations {t : FileTree} {path : String} {at' : Location}
    (h : t.fileLocation? path = some at') : at' ∈ t.fileLocations := by
  unfold fileLocation? lookup at h
  split at h
  · next l content hl =>
    split at hl
    · simp at hl
    · next l' _ =>
      split at hl
      · simp at hl
      · next n hn =>
        simp only [Except.ok.injEq, Prod.mk.injEq] at hl
        obtain ⟨rfl, rfl⟩ := hl
        simp only [Option.some.injEq] at h
        subst h
        unfold node? at hn
        split at hn
        · simp at hn
        · obtain ⟨⟨k, m⟩, hf, hm⟩ := Option.map_eq_some_iff.1 hn
          have hk : k = l' := by simpa using List.find?_some hf
          refine List.mem_filterMap.2 ⟨(k, m), List.mem_of_find?_eq_some hf, ?_⟩
          simp only at hm
          subst hm hk
          rfl
  · simp at h

/-! ## Changing -/

/-- A tree with something put at a location. -/
def put (t : FileTree) (at' : Location) (n : Node) : FileTree :=
  if t.nodes.any fun m => m.1 == at' then
    { t with nodes := t.nodes.map fun m => if m.1 == at' then (at', n) else m }
  else { t with nodes := t.nodes ++ [(at', n)] }

/-- Make one directory. -/
def makeDirectory (t : FileTree) (path : String) : Except FileCause FileTree :=
  match t.locate path with
  | .error e => .error e
  | .ok at' => if (t.node? at').isSome then .error .exists else .ok (t.put at' .directory)

/-- Make a directory after those that lead to it, given as a chain, innermost first. The tree is
    changed as far as that went, also where it fails. -/
def makeChain (t : FileTree) : List String → FileTree × Option FileCause
  | [] => (t, none)
  | path :: outer =>
    match t.makeDirectory path with
    | .ok t' => (t', none)
    | .error .notFound =>
      match t.makeChain outer with
      | (t', some e) => (t', some e)
      | (t', none) =>
        match t'.makeDirectory path with
        | .ok t'' => (t'', none)
        | .error e => (t', if t'.isDirectory path then none else some e)
    | .error e => (t, if t.isDirectory path then none else some e)

/-- Make a directory and those that lead to it, where they are missing. -/
def makeDirectories (t : FileTree) (path : String) : FileTree × Option FileCause :=
  t.makeChain (Path.chain path)

/-- Write a file, in a directory that is there. -/
def write (t : FileTree) (path text : String) : Except FileCause FileTree :=
  match t.locate path with
  | .error e => .error e
  | .ok at' =>
    if t.node? at' = some .directory then .error .isDirectory
    else .ok (t.put at' (.file (some text)))

end FileTree

end MacroAsm
