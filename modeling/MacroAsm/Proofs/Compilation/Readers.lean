import MacroAsm.Proofs.Macros.Definitions
import MacroAsm.Proofs.Memory.Blocks

set_option autoImplicit false

/-! # Three readers of one file

The macros, the memory layout and the code of a file are read by three passes that know nothing of
each other. They agree on where a file is cut (`Layout.readers_agree`): a file in which neither the
macros nor the layout have an error is a sequence of segments, each of which counts for one of the
readers only. -/

namespace MacroAsm

/-- A list has no element of some kind, or a first one. -/
theorem exists_first {α : Type} (p : α → Bool) (xs : List α) :
    (∀ x ∈ xs, p x = false) ∨
      ∃ as x bs, xs = as ++ x :: bs ∧ (∀ a ∈ as, p a = false) ∧ p x = true := by
  cases h : xs.find? p with
  | none => exact .inl fun x hx => by simpa using List.find?_eq_none.1 h x hx
  | some x =>
    obtain ⟨hx, as, bs, heq, has⟩ := List.find?_eq_some_iff_append.1 h
    exact .inr ⟨as, x, bs, heq, fun a ha => by simpa using has a ha, hx⟩

namespace Layout

/-! ## The first segment -/

section First

variable {r : MacroReader} {found : Option Layout} {report : Report} {l : Line} {rest : List Line}

/-- A line that begins a macro is followed by its body and its end. -/
theorem exists_definition (hr : r.current = none) (hl : l.isDirective "macro" = true)
    (h : ((l :: rest).foldl MacroReader.step r).close.report.hasError = false) :
    ∃ body stop ls, rest = body ++ stop :: ls ∧ (Segment.definition l body stop).Valid := by
  rw [List.foldl_cons, MacroReader.step_of_start hr hl] at h
  rcases exists_first (fun k => k.isDirective "macro" || k.isDirective "endmacro") rest with
    hnone | ⟨body, stop, ls, rfl, hbody, hstop⟩
  · -- the macro is never ended, which is an error
    have hopen := MacroReader.isSome_current_foldl
      (r := { r with current := some ⟨MacroReader.restOf l, l, [], [], false⟩ }) rfl
      fun k hk => Bool.or_eq_false_iff.1 (hnone k hk)
    rw [(MacroReader.of_close h).1] at hopen
    exact absurd hopen (by decide)
  · have hbody' := fun k hk => Bool.or_eq_false_iff.1 (hbody k hk)
    have he := (MacroReader.of_close h).2
    rw [List.foldl_append, List.foldl_cons] at he
    rcases Bool.or_eq_true_iff.1 hstop with hnested | hend
    · -- a macro begins inside of it, which is an error
      have hopen := MacroReader.isSome_current_foldl
        (r := { r with current := some ⟨MacroReader.restOf l, l, [], [], false⟩ }) rfl hbody'
      obtain ⟨m, hm⟩ := Option.isSome_iff_exists.1 hopen
      have hhere := MacroReader.faultless_of_foldl he
      rw [MacroReader.hasError_step_of_nested hm hnested] at hhere
      exact absurd hhere (by decide)
    · exact ⟨body, stop, ls, rfl, hl, hbody', hend⟩

/-- A line that asks for a layout with declarations is followed by these and their end, unless a
    layout was found before. -/
theorem exists_declarations (hl : l.opensBlock = true)
    (h : ((l :: rest).foldl Search.step ⟨none, false, none, report⟩).close.report.hasError =
      false) :
    ∃ body stop ls, rest = body ++ stop :: ls ∧ (Segment.declarations l body stop).Valid := by
  obtain ⟨kind, balance, report', -, -, hopen⟩ := Search.exists_step_of_opensBlock none report hl
  rw [List.foldl_cons, hopen] at h
  rcases exists_first (fun k => k.isDirective endName) rest with
    hnone | ⟨body, stop, ls, rfl, hbody, hstop⟩
  · -- the declarations are never ended, which is an error
    have hcurrent := (Search.of_close h).1
    rw [Search.foldl_block_lines rfl hnone] at hcurrent
    simp at hcurrent
  · refine ⟨body, stop, ls, rfl, hl, ?_, hstop⟩
    have he := (Search.of_close h).2
    rw [List.foldl_append, List.foldl_cons, Search.foldl_block_lines rfl hbody] at he
    have htake := Search.faultless_of_foldl he
    rw [Search.step_of_stop rfl hstop] at htake
    have hread := (Search.faultless_of_take htake).2 rfl
    simpa using directive?_of_readDeclarations hread

/-- Where neither the macros nor the layout have an error, a segment begins. -/
theorem exists_segment (hr : r.current = none)
    (hmacros : ((l :: rest).foldl MacroReader.step r).close.report.hasError = false)
    (hlayout : ((l :: rest).foldl Search.step ⟨found, false, none, report⟩).close.report.hasError =
      false)
    (hone : (outsideMacros false (l :: rest)).countP Line.asksLayout + found.toList.length ≤ 1) :
    ∃ (g : Segment) (ls : List Line), l :: rest = g.lines ++ ls ∧ g.Valid := by
  cases hbegin : l.isDirective "macro" with
  | true =>
    obtain ⟨body, stop, ls, rfl, hvalid⟩ := exists_definition hr hbegin hmacros
    exact ⟨_, ls, by simp [Segment.lines], hvalid⟩
  | false =>
    cases hend : l.isDirective "endmacro" with
    | true =>
      -- no macro is open that could be ended
      have he := (MacroReader.of_close hmacros).2
      rw [List.foldl_cons] at he
      have hhere := MacroReader.faultless_of_foldl he
      rw [MacroReader.hasError_step_of_stop hr hend] at hhere
      exact absurd hhere (by decide)
    | false =>
      cases hblock : l.opensBlock with
      | false =>
        cases hd : l.directive? with
        | none => exact ⟨.code l, rest, rfl, hd⟩
        | some d => exact ⟨.directive l, rest, rfl, by simp [hd], hbegin, hend, hblock⟩
      | true =>
        -- this is the one line that asks for a layout, so none was found before
        have hasks : (outsideMacros false (l :: rest)).countP Line.asksLayout ≠ 0 := by
          intro hzero
          rw [outsideMacros, if_neg Bool.false_ne_true, List.countP_cons] at hzero
          simp [Line.asksLayout_of_opensBlock hblock] at hzero
        have hnone : found = none := by
          cases found with
          | none => rfl
          | some layout =>
            simp only [Option.toList_some, List.length_singleton] at hone
            omega
        subst hnone
        obtain ⟨body, stop, ls, rfl, hvalid⟩ := exists_declarations hblock hlayout
        exact ⟨_, ls, by simp [Segment.lines], hvalid⟩

end First

/-! ## All segments -/

/-- Where neither the macros nor the layout have an error, a list of lines is cut into segments. -/
theorem exists_segments {r : MacroReader} {found : Option Layout} {report : Report}
    {lines : List Line} (hr : r.current = none)
    (hmacros : (lines.foldl MacroReader.step r).close.report.hasError = false)
    (hlayout : (lines.foldl Search.step ⟨found, false, none, report⟩).close.report.hasError = false)
    (hone : (outsideMacros false lines).countP Line.asksLayout + found.toList.length ≤ 1) :
    ∃ ss : List Segment, ss.flatMap Segment.lines = lines ∧ ∀ g ∈ ss, g.Valid := by
  -- a segment has at least one line, so what is left is shorter
  induction hn : lines.length using Nat.strongRecOn generalizing lines r found report with
  | ind n ih =>
    cases lines with
    | nil => exact ⟨[], rfl, by simp⟩
    | cons l rest =>
      obtain ⟨g, ls, heq, hg⟩ := exists_segment hr hmacros hlayout hone
      have hlength : ls.length < n := by
        obtain ⟨tail, htail⟩ := g.exists_lines_eq
        rw [htail] at heq
        have h := congrArg List.length heq
        simp only [List.length_cons, List.length_append] at h hn
        omega
      rw [heq] at hmacros hlayout hone
      rw [List.foldl_append] at hmacros hlayout
      rw [hg.countP_outsideMacros] at hone
      obtain ⟨found', report', hfold, hkept, htaken⟩ := Search.foldl_segment found report hg
      rw [hfold] at hlayout
      have hcount : found'.toList.length ≤ g.asksLayout.toNat + found.toList.length := by
        cases hasks : g.asksLayout with
        | false => rw [hkept hasks]; omega
        | true =>
          obtain ⟨b, -, rfl⟩ := htaken hasks
          cases found <;> simp
      have hnext : (g.lines.foldl MacroReader.step r).current = none := by
        cases hdefined : g.defined? with
        | none => rw [MacroReader.foldl_segment_of_other hg hdefined hr]; exact hr
        | some mac? =>
          cases g with
          | definition start body stop =>
            obtain ⟨mac, -, report, hdef⟩ := MacroReader.foldl_definition hr hg
              (MacroReader.faultless_of_foldl (MacroReader.of_close hmacros).2)
            rw [hdef]
          | _ => simp [Segment.defined?] at hdefined
      obtain ⟨ss, hss, hvalid⟩ := ih ls.length hlength hnext hmacros hlayout (by omega) rfl
      refine ⟨g :: ss, ?_, List.forall_mem_cons.2 ⟨hg, hvalid⟩⟩
      rw [List.flatMap_cons, hss, heq]

/-- What a layout declares: nothing without a block of declarations, and otherwise what the lines of
    the one block say, which belongs to the line of the layout. -/
def DeclaredBy (layout : Layout) (blocks : List (Line × List Line)) : Prop :=
  (blocks = [] ∧ layout.declarations = []) ∨
    ∃ start body, blocks = [(start, body)] ∧ layout.position = some start.position ∧
      layout.kind.hasBlock = true ∧
      layout.declarations = (readDeclarations layout.kind body).1

theorem Search.AskedBy.declaredBy {b : Block} {g : Segment} {ss : List Segment} (hb : AskedBy b g)
    (hg : g.asksLayout = true) (hss : ss.filterMap Segment.declarations? = []) :
    b.layout.DeclaredBy ((g :: ss).filterMap Segment.declarations?) := by
  cases g with
  | code l => simp [Segment.asksLayout] at hg
  | definition start body stop => simp [Segment.asksLayout] at hg
  | directive l =>
    refine .inl ⟨hss, ?_⟩
    rw [Block.layout, hb.lines]
    rfl
  | declarations start body stop =>
    refine .inr ⟨start, body, ?_, ?_, hb.hasBlock, ?_⟩
    · simp [Segment.declarations?, hss]
    · rw [Block.layout, hb.start]
      rfl
    · rw [Block.layout, hb.lines]
      rfl

theorem Segment.declarations?_of_not_asksLayout {g : Segment} (hg : g.Valid)
    (h : g.asksLayout = false) : g.declarations? = none := by
  cases g with
  | declarations start body stop =>
    exact absurd (h.symm.trans (Line.asksLayout_of_opensBlock hg.1)) (by decide)
  | _ => rfl

/-- The layout of a file is the one that a segment asks for. -/
theorem Search.foldl_segments {ss : List Segment} (hss : ∀ g ∈ ss, g.Valid)
    (found : Option Layout) (report : Report)
    (hone : (outsideMacros false (ss.flatMap Segment.lines)).countP Line.asksLayout +
      found.toList.length ≤ 1) :
    ∃ found' report', (ss.flatMap Segment.lines).foldl step ⟨found, false, none, report⟩ =
        ⟨found', false, none, report'⟩ ∧
      (found = none →
        (found'.getD default).DeclaredBy (ss.filterMap Segment.declarations?)) ∧
      (found ≠ none → found' = found ∧ ss.filterMap Segment.declarations? = []) := by
  induction ss generalizing found report with
  | nil =>
    refine ⟨found, report, rfl, fun h => ?_, fun _ => ⟨rfl, rfl⟩⟩
    subst h
    exact .inl ⟨rfl, rfl⟩
  | cons g ss ih =>
    have hg := hss g List.mem_cons_self
    have htail := fun k hk => hss k (List.mem_cons_of_mem g hk)
    rw [List.flatMap_cons, hg.countP_outsideMacros] at hone
    obtain ⟨found', report', hfold, hkept, htaken⟩ := Search.foldl_segment found report hg
    rw [List.flatMap_cons, List.foldl_append, hfold]
    cases hasks : g.asksLayout with
    | false =>
      obtain rfl := hkept hasks
      have hdeclarations := Segment.declarations?_of_not_asksLayout hg hasks
      rw [List.filterMap_cons_none hdeclarations]
      exact ih htail _ report' (by omega)
    | true =>
      -- no other segment asks for a layout, and none was found before
      have hnone : found = none := by
        cases found with
        | none => rfl
        | some layout => simp [hasks] at hone
      subst hnone
      obtain ⟨b, hb, rfl⟩ := htaken hasks
      obtain ⟨last, report'', heq, -, hlast⟩ := ih htail (some b.layout) report' (by
        simp only [hasks, Bool.toNat_true, Option.toList_none, List.length_nil] at hone
        simp only [Option.toList_some, List.length_singleton]
        omega)
      obtain ⟨rfl, hrest⟩ := hlast (by simp)
      exact ⟨_, report'', heq, fun _ => hb.declaredBy hasks hrest, fun h => absurd rfl h⟩

/-! ## Agreement -/

/-- What the three readers take from a file that is cut into segments. -/
structure ReadAs (main : List Line) (ss : List Segment) : Prop where
  lines : ss.flatMap Segment.lines = main
  valid : ∀ g ∈ ss, g.Valid
  /-- There is no other way to cut the file. -/
  unique : ∀ ss' : List Segment, ss'.flatMap Segment.lines = main → (∀ g ∈ ss', g.Valid) → ss' = ss
  /-- Each line that is no directive is in one of the segments. -/
  plain : main.filter (fun l => l.directive?.isNone) = ss.flatMap Segment.plainLines
  /-- The macros are those that the definitions stand for. -/
  macros : ∃ macros : List Macro, ss.filterMap Segment.defined? = macros.map .ok ∧
    (MacroTable.load .empty main).1 = macros.foldl (fun table m => table.insert m.name m) .empty
  /-- The layout declares what its declarations say. -/
  layout : (find main).1.DeclaredBy (ss.filterMap Segment.declarations?)
  /-- The code is what is left, unchanged and in order. -/
  code : CodeLines.ofLines main = ss.filterMap Segment.code?

/-- A file in whose macros and layout there is no error, and which asks for one layout at most, is cut
    into segments, in one way only. The macros are those that its definitions stand for; the layout
    declares what its declarations say; and the code is what is left, unchanged and in order. -/
theorem readers_agree {main : List Line}
    (hmacros : (MacroTable.load .empty main).2.hasError = false)
    (hlayout : (find main).2.hasError = false)
    (hone : (outsideMacros false main).countP Line.asksLayout ≤ 1) :
    ∃ ss : List Segment, ReadAs main ss := by
  have hclosed : (main.foldl Search.step ⟨none, false, none, .empty⟩).close.report.hasError =
      false := by
    obtain ⟨hcurrent, hreport, -⟩ := find_eq hlayout
    rw [Search.close, hcurrent]
    exact hreport
  obtain ⟨ss, rfl, hvalid⟩ := exists_segments (r := ⟨.empty, none, .empty⟩) rfl hmacros hclosed
    (by simpa using hone)
  refine ⟨ss, ?_⟩
  constructor
  case lines => rfl
  case valid => exact hvalid
  case unique => exact fun ss' heq h => Segment.eq_of_flatMap_lines h hvalid heq
  case plain =>
    rw [List.filter_flatMap, List.flatMap_def, List.flatMap_def]
    exact congrArg List.flatten (List.map_congr_left fun g hg => (hvalid g hg).filter_lines)
  case macros =>
    obtain ⟨-, hreport, htable⟩ := MacroTable.load_eq hmacros
    rw [htable]
    exact MacroReader.foldl_segments hvalid rfl hreport
  case layout =>
    obtain ⟨found, report, heq, hdeclared, -⟩ :=
      Search.foldl_segments hvalid none .empty (by simpa using hone)
    obtain ⟨-, -, hfound⟩ := find_eq hlayout
    rw [hfound, heq]
    exact hdeclared rfl
  case code => exact CodeLines.ofLines_segments hvalid

/-- A line of a file. -/
def lineAt (index : Nat) (raw : String) : Line :=
  Line.ofRaw "main" index raw

/-- Declarations, a macro that wraps a block, a directive that means nothing, and code. -/
def mixedSegments : List Segment :=
  [.declarations (lineAt 0 "#memorylayout static incremental") [lineAt 1 "a", lineAt 2 "b"]
      (lineAt 3 "#end"),
    .code (lineAt 4 "mov *a, &r1"),
    .definition (lineAt 5 "#macro twice %register") [lineAt 6 "inc %1", lineAt 7 "#pragma once",
      lineAt 8 "...", lineAt 9 "dec %1"] (lineAt 10 "#endmacro done"),
    .directive (lineAt 11 "#pragma once"), .code (lineAt 12 "hlt")]

/-- Each reader takes its own segments. -/
theorem mixedSegments_read :
    (∃ m, MacroReader.definition (lineAt 5 "#macro twice %register") [lineAt 6 "inc %1",
          lineAt 7 "#pragma once", lineAt 8 "...", lineAt 9 "dec %1"] (lineAt 10 "#endmacro done") =
          .ok m ∧
        (MacroTable.load .empty (mixedSegments.flatMap Segment.lines)).1 =
          Registry.empty.insert m.name m) ∧
      (find (mixedSegments.flatMap Segment.lines)).1.DeclaredBy
        [(lineAt 0 "#memorylayout static incremental", [lineAt 1 "a", lineAt 2 "b"])] ∧
      CodeLines.ofLines (mixedSegments.flatMap Segment.lines) =
        [lineAt 4 "mov *a, &r1", lineAt 12 "hlt"] := by
  obtain ⟨hmacros, hlayout, hone⟩ :
      (MacroTable.load .empty (mixedSegments.flatMap Segment.lines)).2.hasError = false ∧
        (find (mixedSegments.flatMap Segment.lines)).2.hasError = false ∧
        (outsideMacros false (mixedSegments.flatMap Segment.lines)).countP Line.asksLayout ≤ 1 := by
    decide +kernel
  obtain ⟨ss, hread⟩ := readers_agree hmacros hlayout hone
  have hvalid : ∀ g ∈ mixedSegments, g.Valid := by decide +kernel
  obtain rfl := hread.unique mixedSegments rfl hvalid
  obtain ⟨macros, hdefined, htable⟩ := hread.macros
  refine ⟨?_, hread.layout, hread.code⟩
  -- there is one definition, so there is one macro
  cases macros with
  | nil => exact absurd (congrArg List.length hdefined) (by decide)
  | cons m macros =>
    obtain ⟨hm, hrest⟩ := List.cons.inj hdefined
    obtain rfl := List.map_eq_nil_iff.1 hrest.symm
    exact ⟨m, hm, htable⟩

end Layout

end MacroAsm
