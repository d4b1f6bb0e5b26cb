import MacroAsm.Macros.Expansion
import MacroAsm.Macros.Reader
import MacroAsm.Program.CodeLines
import MacroAsm.Program.Linking
import MacroAsm.Source.Includes

set_option autoImplicit false

/-! # Compilation

A source file is compiled in stages. Each stage adds its messages to the report, and after each the
compilation stops if a message reached the exit level (`Staged.next`), so a higher exit level only
ever goes further. Whatever the exit level, there is a program only if there was no error. -/

namespace MacroAsm

/-! ## Stages -/

/-- The report so far, and a value unless the compilation has stopped. -/
structure Staged (α : Type) where
  report : Report
  value? : Option α

namespace Staged

variable {α β : Type}

/-- A value with a report, or only the report where it reached the exit level. -/
def checked (exitLevel : Level) (report : Report) (a : α) : Staged α :=
  ⟨report, if report.reached exitLevel then none else some a⟩

/-- Go through one more stage, unless the compilation has stopped. -/
def next (s : Staged α) (exitLevel : Level) (stage : α → β × Report) : Staged β :=
  match s.value? with
  | none => ⟨s.report, none⟩
  | some a => checked exitLevel (s.report ++ (stage a).2) (stage a).1

end Staged

/-- The outcome of a compilation: its report, and a program unless it stopped or found errors. -/
structure Compilation where
  report : Report
  program : Option Program

namespace Compilation

/-! ## Directives -/

/-- The directives that mean something. -/
def directives : List String :=
  ["macro", "endmacro", Includes.directiveName, Layout.directiveName, Layout.endName]

/-- The warning about a directive that means nothing here. -/
def directiveMessage? (l : Line) : Option Message :=
  match l.directive? with
  | none => none
  | some d =>
    if d.name = "macrogenerator" then
      some (.about .warning "#macrogenerator is not supported, the directive is ignored" l.position)
    else if directives.contains d.name then none
    else some (.about .warning s!"Unknown directive `#{d.name}` is ignored" l.position)

/-! ## The whole way -/

/-- The macros of several files, those of earlier files first. -/
def loadMacros (files : List (List Line)) : MacroTable × Report :=
  files.foldl
    (fun acc lines =>
      let (table, report) := acc.1.load lines
      (table, acc.2 ++ report))
    (.empty, .empty)

/-- The sizes and tables by which a listing is linked. -/
def scopeOf (o : Options) (addresses : Variables) (labels : Labels) : Scope :=
  ⟨o.registerCount, o.memorySize, labels, addresses⟩

/-- The stages after all files are there; `report` holds what was found up to then. -/
def stages (o : Options) (main : List Line) (files : List (List Line)) (report : Report) :
    Staged Program :=
  let exit := o.exitLevel
  let loaded := (Staged.checked exit report ()).next exit fun _ => loadMacros (files ++ [main])
  let expanded := loaded.next exit fun table => table.expand (CodeLines.ofLines main)
  let assigned := expanded.next exit fun code =>
    let (layout, found) := Layout.find main
    let (addresses, granted) := layout.assign code o
    ((code, addresses), found ++ granted)
  let listed := assigned.next exit fun (code, addresses) =>
    let listing := Listing.ofLines code
    ((listing, addresses), listing.report)
  listed.next exit fun (listing, addresses) =>
    Program.link (scopeOf o addresses listing.labels) listing.parsed.toList

/-- The outcome of the stages. -/
def ofStaged (s : Staged Program) : Compilation :=
  ⟨s.report, if s.report.hasError then none else s.value?⟩

/-- Compile the lines of a main file; included files are searched from its path. -/
def ofLines (t : FileTree) (path : String) (main : List Line) (o : Options) :
    Except Failure Compilation :=
  match o.validate with
  | .error e => .error e
  | .ok () =>
    match Includes.collect t path main with
    | .error e => .error e
    | .ok c =>
      let report := Report.ofList (main.filterMap directiveMessage?) ++ c.report
      .ok (ofStaged (stages o main (c.files.toList.map Includes.Loaded.lines) report))

/-- Compile a text as if it were the file at a path. -/
def ofText (t : FileTree) (path text : String) (o : Options) : Except Failure Compilation :=
  ofLines t path (Line.ofText path text) o

/-- Compile the file at a path. -/
def ofFile (t : FileTree) (path : String) (o : Options) : Except Failure Compilation :=
  match Line.load t path with
  | .error e => .error e
  | .ok lines => ofLines t path lines o

/-- The exit code of a compilation: zero if it has a program and the exit level was not reached. -/
def exitCode (c : Compilation) (exitLevel : Level) : Nat :=
  if c.report.reached exitLevel || c.program.isNone then 1 else 0

end Compilation

end MacroAsm
