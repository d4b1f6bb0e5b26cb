import MacroAsm.Diagnostics.Report
import MacroAsm.Isa.Operand
import MacroAsm.Registry
import MacroAsm.Source.Line

set_option autoImplicit false

/-! # Memory layouts

A line `#memorylayout` tells where variables come from: `static` names them up to `#end`, `explicit`
gives each an address, `static auto` takes those that the code uses. The words `incremental` and
`balanced` tell how addresses are chosen. The first such line of a file that names a kind counts. -/

namespace MacroAsm

/-! ## Kinds -/

/-- Where variables come from. -/
inductive LayoutKind where
  | static
  | staticAuto
  | explicit
  deriving DecidableEq, Repr

/-- How addresses are chosen: one after the other, or in turn from banks of equal size. -/
inductive Balance where
  | incremental
  | balanced
  deriving DecidableEq, Repr

namespace LayoutKind

/-- A text names no kind. -/
structure Unknown where
  text : String
  deriving DecidableEq, Repr

/-- The wording of the error. -/
def Unknown.message (e : Unknown) : String :=
  s!"#memorylayout `{e.text}` has no valid layout type [static / static auto / explicit]"

/-- The kind that the words of a text name. -/
def parse (s : String) : Except Unknown LayoutKind :=
  let words := (Text.words s.toList).map String.ofList
  if words.contains "explicit" then .ok .explicit
  else if words.contains "static" then
    if words.contains "auto" then .ok .staticAuto else .ok .static
  else .error ⟨s⟩

/-- Whether declarations follow, up to `#end`. -/
def hasBlock : LayoutKind → Bool
  | .static | .explicit => true
  | .staticAuto => false

end LayoutKind

/-- How addresses are chosen, if the words of a text say so. -/
def Balance.parse? (s : String) : Option Balance :=
  let words := (Text.words s.toList).map String.ofList
  if words.contains "balanced" then some .balanced
  else if words.contains "incremental" then some .incremental
  else none

/-! ## Layouts -/

/-- A variable that is declared, with its address where one is given. -/
structure Declaration where
  name : String
  address : Option Nat
  position : Position
  deriving DecidableEq, Repr

/-- A memory layout; it has no place when no line asks for it. -/
structure Layout where
  kind : LayoutKind
  balance : Balance
  declarations : List Declaration
  position : Option Position
  deriving DecidableEq, Repr

namespace Layout

/-- The layout of a file that does not ask for one. -/
def default : Layout :=
  ⟨.staticAuto, .incremental, [], none⟩

/-- The directive that asks for a layout. -/
def directiveName : String := "memorylayout"

/-- The directive that ends its declarations. -/
def endName : String := "end"

/-! ## Declarations -/

/-- Why a line declares nothing. -/
inductive DeclarationError where
  | badAddress (address name : String)
  | notNameAndAddress
  | notOneName
  | badName (name : String)
  deriving DecidableEq, Repr

/-- The wording of an error. -/
def DeclarationError.message : DeclarationError → String
  | .badAddress address name => s!"Invalid address `{address}` for variable `{name}`"
  | .notNameAndAddress => "Expected `name address`"
  | .notOneName => "Expected a single variable name"
  | .badName name => s!"Invalid variable name `{name}`"

/-- A text without the characters of one kind that it starts with. -/
def stripMark (mark : Char) (cs : List Char) : List Char :=
  cs.dropWhile (· == mark)

/-- The name that a word declares, and its address. -/
def declared (word : List Char) (address : Option Nat) :
    Except DeclarationError (String × Option Nat) :=
  let name := stripMark '*' word
  if isIdentChars name then .ok (String.ofList name, address)
  else .error (.badName (String.ofList name))

/-- Read the words of a declaration. -/
def readDeclaration (kind : LayoutKind) (words : List (List Char)) :
    Except DeclarationError (String × Option Nat) :=
  match kind, words with
  | .static, [word] => declared word none
  | .explicit, [word, given] =>
    let digits := stripMark '$' given
    match Numeral.ofChars digits with
    | .ok (.ofNat a) => declared word (some a)
    | _ => .error (.badAddress (String.ofList digits) (String.ofList word))
  | .explicit, _ => .error .notNameAndAddress
  | _, _ => .error .notOneName

/-- A variable was declared already. -/
def twiceMessage (l : Line) (name : String) (previous : Declaration) : Message :=
  (Message.about .warning s!"Variable `{name}` is declared twice" l.position).withNote
    "first declared here" (some previous.position)

/-- Declarations read so far, by their names, and what was reported. -/
structure Declarations where
  table : Registry Declaration
  report : Report

/-- Read one line of declarations; an empty line declares nothing. -/
def Declarations.step (kind : LayoutKind) (ds : Declarations) (l : Line) : Declarations :=
  if l.code.isEmpty then ds
  else
    match readDeclaration kind (Text.words l.code.toList) with
    | .error e => { ds with report := ds.report.push (.about .error e.message l.position) }
    | .ok (name, address) =>
      match ds.table.find? name with
      | some previous => { ds with report := ds.report.push (twiceMessage l name previous) }
      | none => { ds with table := ds.table.insert name ⟨name, address, l.position⟩ }

/-- Read lines of declarations. -/
def readDeclarations (kind : LayoutKind) (lines : List Line) : List Declaration × Report :=
  let ds := lines.foldl (Declarations.step kind) ⟨.empty, .empty⟩
  (ds.table.values, ds.report)

/-! ## Finding the layout of a file -/

/-- A layout whose lines are being read, the last of them first. -/
structure Block where
  kind : LayoutKind
  balance : Balance
  start : Line
  lines : List Line

/-- The state of the search: the layout that counts, whether the line is inside a macro, the block
    being read, and what was reported. -/
structure Search where
  found : Option Layout
  inMacro : Bool
  current : Option Block
  report : Report

namespace Search

/-- A layout line names no kind. -/
def noKindMessage (l : Line) (e : LayoutKind.Unknown) : Message :=
  (Message.about .warning e.message l.position).withNote
    "continuing search for other #memorylayout sections" none

/-- A layout line does not say how addresses are chosen. -/
def noBalanceMessage (l : Line) : Message :=
  .about .warning
    "#memorylayout has no balancing type [incremental / balanced], defaulting to incremental"
    l.position

/-- Declarations do not end. -/
def unendedMessage (l : Line) : Message :=
  .about .error "Expected #end after #memorylayout block" l.position

/-- A layout was found already. -/
def ignoredMessage (l : Line) (first : Layout) : Message :=
  (Message.about .warning "Only one #memorylayout is used, this one is ignored" l.position).withNote
    "first #memorylayout is here" first.position

/-- There is no layout. -/
def absentMessage : Message :=
  ⟨.warning, "No #memorylayout found, defaulting to static auto incremental", none, []⟩

/-- A search with one more message. -/
def addMessage (s : Search) (m : Message) : Search :=
  { s with report := s.report.push m }

/-- Take a layout whose lines have been read, unless one was found before. -/
def take (s : Search) (b : Block) : Search :=
  let s := { s with current := none }
  match s.found with
  | some first => s.addMessage (ignoredMessage b.start first)
  | none =>
    let (declarations, report) := readDeclarations b.kind b.lines.reverse
    { s with
      found := some ⟨b.kind, b.balance, declarations, some b.start.position⟩
      report := s.report ++ report }

/-- Begin a layout of a kind. Explicit addresses leave nothing to choose. -/
def begin (s : Search) (l : Line) (kind : LayoutKind) (words : String) : Search :=
  let (s, balance) := match kind, Balance.parse? words with
    | .explicit, _ => (s, Balance.incremental)
    | _, some balance => (s, balance)
    | _, none => (s.addMessage (noBalanceMessage l), .incremental)
  if kind.hasBlock then { s with current := some ⟨kind, balance, l, []⟩ }
  else s.take ⟨kind, balance, l, []⟩

/-- Look at one line. -/
def step (s : Search) (l : Line) : Search :=
  match s.current with
  | some b =>
    if l.isDirective endName then s.take b
    else { s with current := some { b with lines := l :: b.lines } }
  | none =>
    match l.directive? with
    | none => s
    | some d =>
      if d.name = "macro" then { s with inMacro := true }
      else if d.name = "endmacro" then { s with inMacro := false }
      else if d.name = directiveName && !s.inMacro then
        match LayoutKind.parse d.rest with
        | .error e => s.addMessage (noKindMessage l e)
        | .ok kind => s.begin l kind d.rest
      else s

/-- Take a layout that does not end. -/
def close (s : Search) : Search :=
  match s.current with
  | some b => (s.addMessage (unendedMessage b.start)).take b
  | none => s

end Search

/-- The layout that the lines of a file ask for, and what is reported about it. -/
def find (lines : List Line) : Layout × Report :=
  let s := (lines.foldl Search.step ⟨none, false, none, .empty⟩).close
  match s.found with
  | some layout => (layout, s.report)
  | none => (default, s.report.push Search.absentMessage)

end Layout

end MacroAsm
