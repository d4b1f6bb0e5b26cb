import MacroAsm.Config.Token
import MacroAsm.Registry

set_option autoImplicit false

/-! # Flat mappings

A configuration file is one document that holds one mapping from scalars to scalars, with an entry on
each line or with all entries in braces. Since nothing in it is nested, its tokens can be cut at the
marks between entries, and each part must then be one entry. -/

namespace MacroAsm.Config

/-- Why a text is no flat mapping. -/
inductive MappingError where
  | malformed
  | severalDocuments
  deriving DecidableEq, Repr

/-- A scalar with its tag. -/
structure Node where
  tag : Option (List Char)
  scalar : Scalar
  deriving DecidableEq, Repr

/-- A key and its value. -/
abbrev Entry := Node × Node

/-- A node that is written out, or the number of the name by which it is referred to. -/
inductive Reference where
  | written (n : Node)
  | named (number : Nat)

/-! ## Nodes -/

/-- What is known of a document: what its handles stand for, the number of each name that was given
    to a node so far, and those nodes by number. -/
structure Context where
  handles : List Handle
  numbers : Registry Nat
  nodes : Std.TreeMap Nat Node

/-- The properties in front of a scalar: a name and a tag, in any order. -/
structure Properties where
  anchor : Option (List Char)
  tag : Option Tag

namespace Properties

/-- The properties at the beginning of some tokens, and the tokens behind them. -/
def read : List Token → Properties × List Token
  | .anchor a :: .tag t :: ts => (⟨some a, some t⟩, ts)
  | .tag t :: .anchor a :: ts => (⟨some a, some t⟩, ts)
  | .anchor a :: ts => (⟨some a, none⟩, ts)
  | .tag t :: ts => (⟨none, some t⟩, ts)
  | ts => (⟨none, none⟩, ts)

/-- The tag in full, which must have a known handle. A lone mark is no tag. -/
def fullTag? (handles : List Handle) (p : Properties) : Option (Option (List Char)) :=
  match p.tag with
  | none => some none
  | some t => (t.resolve? handles).map some

end Properties

/-- The scalar that some tokens are. No tokens at all are the empty scalar. -/
def Scalar.ofTokens? : List Token → Option Scalar
  | [] => some .empty
  | [.scalar s] => some s
  | _ => none

namespace Context

/-- The context at the start of a document. -/
def start (handles : List Handle) : Context :=
  ⟨handles, .empty, ∅⟩

/-- The number of a name. -/
def number? (ctx : Context) (name : List Char) : Option Nat :=
  ctx.numbers.find? (String.ofList name)

/-- The node that is referred to. -/
def node? (ctx : Context) : Reference → Option Node
  | .written n => some n
  | .named number => ctx.nodes[number]?

/-- Number a name by how many names are known. One that is known already gets a new number too, which
    the next new name then shares. -/
def number (ctx : Context) (name : List Char) : Context :=
  { ctx with numbers := ctx.numbers.insert (String.ofList name) ctx.numbers.size }

/-- Give a node its name, if it has one. -/
def give (ctx : Context) (name : Option (List Char)) (n : Node) : Context :=
  match name with
  | some name => { ctx.number name with nodes := ctx.nodes.insert ctx.numbers.size n }
  | none => ctx

/-- The node that some tokens are or refer to, and the context after it. The tag that is a lone mark
    leaves a scalar without one. -/
def reference? (ctx : Context) (ts : List Token) : Option (Reference × Context) :=
  match ts with
  | [.alias name] => (ctx.number? name).map fun n => (.named n, ctx)
  | ts =>
    let (p, rest) := Properties.read ts
    (p.fullTag? ctx.handles).bind fun tag =>
      (Scalar.ofTokens? rest).map fun s =>
        let node : Node := ⟨tag.filter fun t => rest.isEmpty || t != ['!'], s⟩
        (.written node, ctx.give p.anchor node)

/-! ## Entries -/

/-- What the key and the value of an entry are. -/
def pair? (ctx : Context) (key value : List Token) : Option ((Reference × Reference) × Context) :=
  (ctx.reference? key).bind fun (k, ctx) => (ctx.reference? value).map fun (v, ctx) => ((k, v), ctx)

/-- The entry of two nodes. -/
def entry? (ctx : Context) (pair : Reference × Reference) : Option Entry :=
  (ctx.node? pair.1).bind fun k => (ctx.node? pair.2).map fun v => (k, v)

end Context

namespace Token

/-- Whether a token is the mark of a key. -/
def isKey : Token → Bool
  | .key => true
  | _ => false

/-- Whether a token is the mark of a value. -/
def isValue : Token → Bool
  | .value => true
  | _ => false

/-- Whether a token is a comma. -/
def isComma : Token → Bool
  | .comma => true
  | _ => false

/-- Whether a token stands between documents. -/
def isOutside : Token → Bool
  | .directive _ => true
  | .documentStart => true
  | .documentEnd => true
  | _ => false

/-- Whether a token is the end of a document. -/
def isDocumentEnd : Token → Bool
  | .documentEnd => true
  | _ => false

end Token

namespace Context

/-- The key and the value behind the mark of a key. -/
def keyedPair? (ctx : Context) (ts : List Token) : Option ((Reference × Reference) × Context) :=
  ctx.pair? (ts.takeWhile (!·.isValue)) ((ts.dropWhile (!·.isValue)).drop 1)

/-- The key and the value in a part of a mapping in braces. Without the mark of a key, it is a key
    without a value. -/
def bracedPair? (ctx : Context) (ts : List Token) : Option ((Reference × Reference) × Context) :=
  match ts with
  | [] => none
  | .key :: ts => ctx.keyedPair? ts
  | ts => ctx.pair? ts []

/-- The entries that some parts are, each read in the context after those before it. What a name
    refers to is known at the end. `done` holds what has been read, last entry first. -/
def entries? (read : Context → List Token → Option ((Reference × Reference) × Context))
    (ctx : Context) (done : List (Reference × Reference)) : List (List Token) → Option (List Entry)
  | [] => done.reverse.mapM ctx.entry?
  | part :: parts => (read ctx part).bind fun (e, ctx) => entries? read ctx (e :: done) parts

/-- The entries of a mapping on lines, from behind its start. Each begins with the mark of its key. -/
def lineEntries? (ctx : Context) (ts : List Token) : Option (List Entry) :=
  match ts.getLast? with
  | some .mappingEnd =>
    match ts.dropLast.splitOnP (·.isKey) with
    | [] :: parts => ctx.entries? keyedPair? [] parts
    | _ => none
  | _ => none

/-- The entries of a mapping in braces, from behind the opening one. A comma may stand behind the
    last. -/
def bracedEntries? (ctx : Context) (ts : List Token) : Option (List Entry) :=
  match ts.getLast? with
  | some .closeBrace =>
    let parts := ts.dropLast.splitOnP (·.isComma)
    let parts := if parts.getLast?.any (·.isEmpty) then parts.dropLast else parts
    ctx.entries? bracedPair? [] parts
  | _ => none

/-! ## Documents -/

/-- The entries of the mapping that a document is. An empty document is an empty mapping. -/
def document? (ctx : Context) (ts : List Token) : Option (List Entry) :=
  let (p, rest) := Properties.read ts
  let ctx := (p.anchor.map ctx.number).getD ctx
  (p.fullTag? ctx.handles).bind fun _ =>
    match rest with
    | [] => some []
    | .mappingStart :: rest => ctx.lineEntries? rest
    | .openBrace :: rest => ctx.bracedEntries? rest
    | _ => none

end Context

/-- The entries of the mapping that some tokens are. A document may start with a mark, and must do so
    if it has directives; and it may end with marks, unless it is empty and has no mark at its
    start. -/
def entriesOf (ts : List Token) : Except MappingError (List Entry) :=
  let directives := ts.takeWhile fun
    | .directive _ => true
    | _ => false
  let (marked, rest) := match ts.drop directives.length with
    | .documentStart :: rest => (true, rest)
    | rest => (false, rest)
  let body := rest.takeWhile (!·.isOutside)
  let ends := rest.dropWhile (!·.isOutside)
  let handles := Directive.handles? (directives.filterMap fun
    | .directive d => some d
    | _ => none)
  if !marked && (!directives.isEmpty || (body.isEmpty && !ends.isEmpty)) then .error .malformed
  else
    match handles.bind fun handles => Context.document? (.start handles) body with
    | none => .error .malformed
    | some entries =>
      if ends.all (·.isDocumentEnd) then .ok entries else .error .severalDocuments

/-- The entries of the mapping that a text holds. -/
def readMapping (text : String) : Except MappingError (List Entry) :=
  let cs := text.toList
  match if cs.all isAllowed then Token.ofChars? (unifyBreaks cs) else none with
  | some ts => entriesOf ts
  | none => .error .malformed

end MacroAsm.Config
