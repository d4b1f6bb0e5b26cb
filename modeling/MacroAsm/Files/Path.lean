set_option autoImplicit false

/-! # Paths

A path is a text with `/` between its names. Empty names and `.` change nothing, except at the front
of a path, where the first makes it absolute and the second is kept as written. The operations keep
the spelling of what they leave in place, because paths are shown to the user as they were built.

They work on the names from the last to the first: `/a/b` is `["b", "a", ""]`. -/

namespace MacroAsm.Path

/-! ## Names of a path -/

/-- The names of a path, last one first. -/
def names (path : String) : List (List Char) :=
  (path.toList.splitOn '/').reverse

/-- The path with some names, given last one first. -/
def ofNames : List (List Char) → String
  | [[]] => "/"
  | ns => String.ofList (List.intercalate ['/'] ns.reverse)

/-- Whether a name changes nothing where it is not the first of its path. -/
def isFiller (name : List Char) : Bool :=
  name == [] || name == ['.']

/-- Drop the names at the end of a path that change nothing. -/
def dropFillers : List (List Char) → List (List Char)
  | [] => []
  | [first] => [first]
  | name :: rest => if isFiller name then dropFillers rest else name :: rest

/-- The path that ends in each of the names, and so each directory on the way, innermost first. -/
def chainOf : List (List Char) → List String
  | [] => []
  | [first] => [ofNames [first]]
  | name :: rest => if isFiller name then chainOf rest else ofNames (name :: rest) :: chainOf rest

/-- A path and the directories that lead to it, innermost first, without the directory that relative
    paths start from. -/
def chain (path : String) : List String :=
  if path = "" then [] else chainOf (names path)

/-! ## Operations -/

/-- Whether a path starts from the root and not from the working directory. -/
def isAbsolute (path : String) : Bool :=
  path.toList.head? == some '/'

/-- The directory a path lies in. It is empty for a single name, and missing for the root and for
    the empty path. -/
def parent? (path : String) : Option String :=
  match chain path with
  | [] => none
  | [only] => if only = "/" then none else some ""
  | _ :: directory :: _ => some directory

/-- A path seen from a directory; an absolute path stays as it is. -/
def join (directory path : String) : String :=
  if isAbsolute path then path
  else if directory = "" || directory.toList.getLast? == some '/' then directory ++ path
  else directory ++ "/" ++ path

/-- A name up to its last dot, unless that dot is its first character. -/
def stem (name : List Char) : List Char :=
  match name.reverse.dropWhile (· != '.') with
  | [] | ['.'] => name
  | _ :: before => before.reverse

/-- A path with the part behind the last dot of its last name replaced. A path that ends in no name
    of its own stays as it is. Where nothing stands behind a name that is two dots and an extension,
    only the two dots are left: without its extension, that path leads to a directory outwards. -/
def withExtension (path extension : String) : String :=
  match dropFillers (names path) with
  | [] => path
  | name :: rest =>
    if isFiller name || name == ['.', '.'] then path
    else if stem name == ['.'] && (names path).head? == some name then ofNames (['.', '.'] :: rest)
    else ofNames ((stem name ++ '.' :: extension.toList) :: rest)

/-! ## Comparing -/

/-- The names that make up a path: the first as it is, and of the others those that change
    something. -/
def parts (path : String) : List (List Char) :=
  match path.toList.splitOn '/' with
  | [] => []
  | first :: rest => first :: rest.filter (!isFiller ·)

/-- Whether two paths are made up of the same names. -/
def sameParts (a b : String) : Bool :=
  parts a == parts b

end MacroAsm.Path
