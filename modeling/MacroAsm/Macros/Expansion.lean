import MacroAsm.Diagnostics.Report
import MacroAsm.Macros.Definition
import MacroAsm.Macros.Placeholder
import MacroAsm.Source.Line

set_option autoImplicit false

/-! # Expanding macros

The first line that uses a macro is replaced by the macro's top, and where the macro wraps a block,
the closer of that block by its bottom; then the search goes on from the replaced line, until no line
uses a macro. What a macro leaves may use macros again, so the number of expansions is limited, and
the expansions are numbered from one.

The closer of a use is found by counting the uses of the same macro in between. -/

namespace MacroAsm

namespace Expansion

/-- The most expansions in one compilation. -/
def limit : Nat := 10000

/-! ## Messages -/

/-- There are too many expansions. -/
def limitMessage (m : Macro) (l : Line) : Message :=
  .about .error s!"Macro expansion limit ({limit}) reached, `{m.name}` is probably recursive"
    l.position

/-- A block has no closer. -/
def unclosedMessage (m : Macro) (closer : String) (l : Line) : Message :=
  .about .error s!"Complex macro `{m.name}` is not closed, expected `{closer}`" l.position

/-- A placeholder cannot be filled. -/
def placeholderMessage (e : PlaceholderError) (l : Line) : Message :=
  .about .error e.message l.position

/-! ## Parts -/

/-- Lines of a macro, filled and put in the place of a line. -/
def fillLines (templates : List String) (args : List String) (uid : Nat) (l : Line) :
    Except PlaceholderError (List Line) :=
  templates.mapM fun s => (Placeholder.fill s args uid).map l.withCode

/-- The text that closes a use; empty where the macro has no closer. -/
def closerText (m : Macro) (args : List String) (uid : Nat) : Except PlaceholderError String :=
  match m.closer with
  | some c => Placeholder.fill c args uid
  | none => .ok ""

/-- Whether a line of code is a closer, in normal spacing. -/
def closes (closer code : String) : Bool :=
  Text.normalize code.toList == closer.toList

/-- A list of lines cut around the closer of a block. -/
structure Block where
  inside : List Line
  closer : Line
  after : List Line

/-- Search the closer of a block; `before` holds the lines passed, last one first, and `depth` counts
    the uses among them that are still open. -/
def findCloser (m : Macro) (closer : String) (depth : Nat) (before : List Line) :
    List Line → Option Block
  | [] => none
  | l :: rest =>
    if (m.captures? l.code).isSome then findCloser m closer (depth + 1) (l :: before) rest
    else if closes closer l.code then
      match depth with
      | 0 => some ⟨before.reverse, l, rest⟩
      | d + 1 => findCloser m closer d (l :: before) rest
    else findCloser m closer depth (l :: before) rest

/-! ## One expansion -/

/-- A line that uses a macro, with the lines behind it. -/
structure Use where
  line : Line
  mac : Macro
  args : List String
  rest : List Line

/-- Search the first use; `before` holds the lines passed, last one first. -/
def seek (macros : List Macro) (before : List Line) : List Line → List Line × Option Use
  | [] => (before.reverse, none)
  | l :: rest =>
    match Macro.use? macros l.code with
    | some (m, args) => (before.reverse, some ⟨l, m, args, rest⟩)
    | none => seek macros (l :: before) rest

/-- The bottom of a macro in the place of a closer. One that cannot be filled is left out. -/
def bottomLines (u : Use) (uid : Nat) (closer : Line) : List Line × List Message :=
  match fillLines u.mac.bottom u.args uid closer with
  | .ok lines => (lines, [])
  | .error e => ([], [placeholderMessage e closer])

/-- The lines from a use on, after its expansion, and what is reported. A use that cannot be
    expanded is dropped. -/
def expandUse (u : Use) (uid : Nat) : List Line × List Message :=
  match fillLines u.mac.top u.args uid u.line with
  | .error e => (u.rest, [placeholderMessage e u.line])
  | .ok top =>
    if u.mac.wraps then
      match closerText u.mac u.args uid with
      | .error e => (u.rest, [placeholderMessage e u.line])
      | .ok closer =>
        match findCloser u.mac closer 0 [] u.rest with
        | none => (u.rest, [unclosedMessage u.mac closer u.line])
        | some block =>
          let (bottom, messages) := bottomLines u uid block.closer
          (top ++ block.inside ++ bottom ++ block.after, messages)
    else (top ++ u.rest, [])

/-- What becomes of a use, with the message about it if it cannot be expanded. -/
inductive Expands (u : Use) (uid : Nat) : List Line × List Message → Prop
  | unfilled (e : PlaceholderError) : Expands u uid (u.rest, [placeholderMessage e u.line])
  | unclosed (closer : String) : Expands u uid (u.rest, [unclosedMessage u.mac closer u.line])
  | top {top : List Line} (htop : fillLines u.mac.top u.args uid u.line = .ok top) :
      Expands u uid (top ++ u.rest, [])
  | block {top : List Line} {closer : String} {b : Block}
      (htop : fillLines u.mac.top u.args uid u.line = .ok top)
      (hcloser : closerText u.mac u.args uid = .ok closer)
      (hblock : findCloser u.mac closer 0 [] u.rest = some b) :
      Expands u uid (top ++ b.inside ++ (bottomLines u uid b.closer).1 ++ b.after,
        (bottomLines u uid b.closer).2)

theorem expands_expandUse (u : Use) (uid : Nat) : Expands u uid (expandUse u uid) := by
  unfold expandUse
  split
  · exact .unfilled _
  · next htop =>
    split
    · split
      · exact .unfilled _
      · next hcloser =>
        split
        · exact .unclosed _
        · next hblock => exact .block htop hcloser hblock
    · exact .top htop

/-- The bottom of a macro is put in place, or left out with a message about a placeholder. -/
theorem bottomLines_cases (u : Use) (uid : Nat) (closer : Line) :
    (∃ lines, fillLines u.mac.bottom u.args uid closer = .ok lines ∧
      bottomLines u uid closer = (lines, [])) ∨
    ∃ e, bottomLines u uid closer = ([], [placeholderMessage e closer]) := by
  unfold bottomLines
  split
  · next lines hfill => exact .inl ⟨lines, hfill, rfl⟩
  · next e _ => exact .inr ⟨e, rfl⟩

theorem exists_of_mem_bottomLines {u : Use} {uid : Nat} {closer : Line} {x : Message}
    (hx : x ∈ (bottomLines u uid closer).2) : ∃ e, x = placeholderMessage e closer := by
  rcases bottomLines_cases u uid closer with ⟨lines, -, hbottom⟩ | ⟨e, hbottom⟩
  · rw [hbottom] at hx
    exact absurd hx List.not_mem_nil
  · rw [hbottom] at hx
    exact ⟨e, List.mem_singleton.1 hx⟩

/-! ## All expansions -/

/-- Expand the uses in some lines, `left` of them at most; the next expansion has the number
    `uid`. -/
def expandFrom (macros : List Macro) : (left uid : Nat) → List Line → List Line × List Message
  | left, uid, lines =>
    match seek macros [] lines with
    | (kept, none) => (kept, [])
    | (kept, some u) =>
      match left with
      | 0 => (kept ++ u.line :: u.rest, [limitMessage u.mac u.line])
      | left + 1 =>
        let (pending, messages) := expandUse u uid
        let (done, more) := expandFrom macros left (uid + 1) pending
        (kept ++ done, messages ++ more)

end Expansion

/-- Expand all uses of macros in some lines. -/
def MacroTable.expand (table : MacroTable) (lines : List Line) : List Line × Report :=
  let (done, messages) := Expansion.expandFrom table.values Expansion.limit 1 lines
  (done, .ofList messages)

end MacroAsm
