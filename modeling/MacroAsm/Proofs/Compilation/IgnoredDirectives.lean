import MacroAsm.Proofs.Compilation.Stages
import MacroAsm.Proofs.Program.BlankLines
import MacroAsm.Proofs.Source.UnknownDirectives

set_option autoImplicit false

/-! # Unknown directives are ignored

A file with an unknown directive is compiled next to the file with an empty line in its place. The
first compilation reports one warning more, before all stages; each stage then takes what the stage
before it made of either file to values that correspond and to the same messages (`Staged.Warned`). A
warning stops nothing at the exit levels `error` and `none`, so both compilations come to the same end
(`Compilation.ofLines_emptied`). Where the line is read as part of a macro or of declarations, it is
not ignored. -/

namespace MacroAsm

/-! ## One warning more -/

/-- Two reports of which the first holds a message more. -/
def Report.Adds (w : Message) (r r' : Report) : Prop :=
  ∃ ms ms', r.toList = ms ++ w :: ms' ∧ r'.toList = ms ++ ms'

namespace Report.Adds

variable {w : Message} {r r' : Report}

theorem append (h : r.Adds w r') (s : Report) : (r ++ s).Adds w (r' ++ s) := by
  obtain ⟨ms, ms', hr, hr'⟩ := h
  refine ⟨ms, ms' ++ s.toList, ?_, ?_⟩
  · rw [toList_append, hr, List.append_assoc]
    rfl
  · rw [toList_append, hr', List.append_assoc]

theorem hasError_eq (h : r.Adds w r') (hw : w.severity = .warning) : r.hasError = r'.hasError := by
  obtain ⟨ms, ms', hr, hr'⟩ := h
  have hne : (w.severity == .error) = false := by
    rw [hw]
    rfl
  simp [hasError, hr, hr', hne]

/-- A warning reaches neither the exit level `error` nor `none`. -/
theorem reached_eq (h : r.Adds w r') (hw : w.severity = .warning) {exitLevel : Level}
    (hexit : exitLevel = .error ∨ exitLevel = .none) :
    r.reached exitLevel = r'.reached exitLevel := by
  obtain ⟨ms, ms', hr, hr'⟩ := h
  rcases hexit with rfl | rfl
  · have hbelow : ¬ Level.error ≤ w.level := by
      rw [Message.level, hw]
      decide
    simp [reached, hr, hr', hbelow]
  · rfl

end Report.Adds

namespace Staged

variable {α α' β β' : Type} {w : Message} {exitLevel : Level}

/-- Two runs that have come equally far, with values that correspond, of which the first has reported
    a message more. -/
structure Warned (w : Message) (R : α → α' → Prop) (s : Staged α) (s' : Staged α') : Prop where
  report : s.report.Adds w s'.report
  value : Option.Rel R s.value? s'.value?

variable {R : α → α' → Prop} {S : β → β' → Prop}

theorem Warned.checked (hw : w.severity = .warning)
    (hexit : exitLevel = .error ∨ exitLevel = .none) {report report' : Report}
    (hreport : report.Adds w report') {a : α} {a' : α'} (ha : R a a') :
    (Staged.checked exitLevel report a).Warned w R (Staged.checked exitLevel report' a') := by
  refine ⟨hreport, ?_⟩
  unfold Staged.checked
  rw [hreport.reached_eq hw hexit]
  cases report'.reached exitLevel with
  | true => exact .none
  | false => exact .some ha

/-- A stage that takes values that correspond to such values, with the same report, is gone through by
    both. -/
theorem Warned.next (hw : w.severity = .warning) (hexit : exitLevel = .error ∨ exitLevel = .none)
    {stage : α → β × Report} {stage' : α' → β' × Report}
    (hstage : ∀ a a', R a a' → S (stage a).1 (stage' a').1 ∧ (stage' a').2 = (stage a).2)
    {s : Staged α} {s' : Staged α'} (h : s.Warned w R s') :
    (s.next exitLevel stage).Warned w S (s'.next exitLevel stage') := by
  obtain ⟨report, value?⟩ := s
  obtain ⟨report', value?'⟩ := s'
  obtain ⟨hreport, hvalue⟩ := h
  cases hvalue with
  | none => exact ⟨hreport, .none⟩
  | some ha =>
    obtain ⟨hvalue, heq⟩ := hstage _ _ ha
    simp only [Staged.next, heq]
    exact .checked hw hexit (hreport.append _) hvalue

end Staged

/-! ## Whole compilations -/

namespace Compilation

/-- Two outcomes of which the first has a message more, if there is any: both are the same failure, or
    the reports are equal but for this message and the programs are equal, but for blank lines among
    those that they were made of. -/
inductive Warned (w : Message) : Except Failure Compilation → Except Failure Compilation → Prop
  | failure (e : Failure) : Warned w (.error e) (.error e)
  | compilation {c c' : Compilation} (report : c.report.Adds w c'.report)
      (program : Option.Rel Program.Padded c.program c'.program) : Warned w (.ok c) (.ok c')

variable {w : Message} {o : Options} {before after : List Line} {l : Line}

theorem Warned.isSome_program_eq {c c' : Compilation} (h : Warned w (.ok c) (.ok c')) :
    c.program.isSome = c'.program.isSome := by
  obtain ⟨report, program⟩ := c
  obtain ⟨report', program'⟩ := c'
  cases h with
  | compilation _ hprogram =>
    cases hprogram with
    | none => rfl
    | some _ => rfl

theorem Warned.exists_program {c c' : Compilation} (h : Warned w (.ok c) (.ok c'))
    (hc : c.program.isSome = true) :
    ∃ p p', c.program = some p ∧ c'.program = some p' ∧ p' = { p with parsed := p'.parsed } := by
  obtain ⟨report, program⟩ := c
  obtain ⟨report', program'⟩ := c'
  cases h with
  | compilation _ hprogram =>
    cases hprogram with
    | none => simp at hc
    | @some p p' hpadded => exact ⟨p, p', rfl, rfl, hpadded.output⟩

theorem warned_ofStaged {s s' : Staged Program} (h : s.Warned w Program.Padded s')
    (hw : w.severity = .warning) : Warned w (.ok (ofStaged s)) (.ok (ofStaged s')) := by
  refine .compilation h.report ?_
  unfold ofStaged
  rw [h.report.hasError_eq hw]
  cases s'.report.hasError with
  | true => exact .none
  | false => exact h.value

/-- The stages keep step with each other. -/
theorem warned_stages (hexit : o.exitLevel = .error ∨ o.exitLevel = .none) (hl : l.Unknown)
    (houtside : before.foldl Line.opensMacro false = false)
    (hoff : ¬ Layout.InDeclarations before) (files : List (List Line)) {report report' : Report}
    (hreport : report.Adds w report') (hw : w.severity = .warning) :
    (stages o (before ++ l :: after) files report).Warned w Program.Padded
      (stages o (before ++ l.emptied :: after) files report') := by
  generalize hmain : before ++ l :: after = main
  generalize hmain' : before ++ l.emptied :: after = main'
  have hload : ∀ u u' : Unit, u = u' →
      ((loadMacros (files ++ [main'])).1 = (loadMacros (files ++ [main])).1 ∧
        (loadMacros (files ++ [main])).1.Marked) ∧
        (loadMacros (files ++ [main'])).2 = (loadMacros (files ++ [main])).2 := by
    have hsame : loadMacros (files ++ [main']) = loadMacros (files ++ [main]) := by
      rw [loadMacros_concat, loadMacros_concat, ← hmain, ← hmain',
        MacroTable.load_emptied _ hl houtside]
    rw [hsame]
    exact fun _ _ _ => ⟨⟨rfl, marked_loadMacros _⟩, rfl⟩
  have hexpand : ∀ table table' : MacroTable, table' = table ∧ table.Marked →
      Padded Line.Blank (table.expand (CodeLines.ofLines main)).1
          (table'.expand (CodeLines.ofLines main')).1 ∧
        (table'.expand (CodeLines.ofLines main')).2 = (table.expand (CodeLines.ofLines main)).2 := by
    rintro table _ ⟨rfl, hmarked⟩
    rw [← hmain, ← hmain']
    exact hmarked.expand_padded (CodeLines.ofLines_padded hl)
  have hassign : ∀ code code' : List Line, Padded Line.Blank code code' →
      (Padded Line.Blank code code' ∧
        ((Layout.find main').1.assign code' o).1 = ((Layout.find main).1.assign code o).1) ∧
      (Layout.find main').2 ++ ((Layout.find main').1.assign code' o).2 =
        (Layout.find main).2 ++ ((Layout.find main).1.assign code o).2 := by
    intro code code' hcode
    rw [← hmain, ← hmain', Layout.find_emptied hl hoff, Layout.assign_padded _ o hcode]
    exact ⟨⟨hcode, rfl⟩, rfl⟩
  have hlist : ∀ a a' : List Line × Variables, Padded Line.Blank a.1 a'.1 ∧ a'.2 = a.2 →
      ((Listing.ofLines a.1).Padded (Listing.ofLines a'.1) ∧ a'.2 = a.2) ∧
        (Listing.ofLines a'.1).report = (Listing.ofLines a.1).report := by
    rintro a a' ⟨hcode, haddresses⟩
    have hlisting := Listing.ofLines_padded hcode
    exact ⟨⟨hlisting, haddresses⟩, hlisting.report⟩
  have hlink : ∀ a a' : Listing × Variables, a.1.Padded a'.1 ∧ a'.2 = a.2 →
      (Program.link (scopeOf o a.2 a.1.labels) a.1.parsed.toList).1.Padded
          (Program.link (scopeOf o a'.2 a'.1.labels) a'.1.parsed.toList).1 ∧
        (Program.link (scopeOf o a'.2 a'.1.labels) a'.1.parsed.toList).2 =
          (Program.link (scopeOf o a.2 a.1.labels) a.1.parsed.toList).2 := by
    rintro a a' ⟨hlisting, haddresses⟩
    rw [haddresses, hlisting.labels]
    exact Program.link_padded _ hlisting.parsed
  exact .next hw hexit hlink (.next hw hexit hlist (.next hw hexit hassign
    (.next hw hexit hexpand (.next hw hexit hload (.checked hw hexit hreport rfl)))))

/-- Among the declarations that count an unknown directive is an error, so there is no program. -/
theorem program_eq_none_of_unknown {t : FileTree} {path : String} {c : Compilation}
    (hl : l.Unknown) (hin : Layout.InDeclarations before)
    (h : ofLines t path (before ++ l :: after) o = .ok c) : c.program = none := by
  obtain ⟨d, hd, hne⟩ := hl.exists_directive
  cases hp : c.program with
  | none => rfl
  | some p =>
    obtain ⟨-, found, -, -, he⟩ := program_of_ofLines h hp
    have hfind := Layout.hasError_find_of_directive hd (hne Layout.endName (by decide)) hin after
    simp [fullReport, Report.hasError_append, hfind] at he

/-- **An unknown directive is ignored**, with a warning about its line, at the exit levels `error` and
    `none`: outside of macros, and unless it is among the declarations of the layout that counts, the
    compilation has the same outcome as with an empty line in its place, but for this warning. Among
    the declarations that count there is no program. -/
theorem ofLines_emptied (t : FileTree) (path : String)
    (hexit : o.exitLevel = .error ∨ o.exitLevel = .none) (before after : List Line)
    (hl : l.Unknown) :
    ∃ text, directiveMessage? l = some (.about .warning text l.position) ∧
      (before.foldl Line.opensMacro false = false → ¬ Layout.InDeclarations before →
        Warned (.about .warning text l.position) (ofLines t path (before ++ l :: after) o)
          (ofLines t path (before ++ l.emptied :: after) o)) ∧
      (Layout.InDeclarations before →
        ∀ c, ofLines t path (before ++ l :: after) o = .ok c → c.program = none) := by
  obtain ⟨text, hmessage⟩ := exists_directiveMessage hl
  refine ⟨text, hmessage, fun houtside hoff => ?_,
    fun hin c h => program_eq_none_of_unknown hl hin h⟩
  have hnone : directiveMessage? l.emptied = none := by
    rw [directiveMessage?, l.blank_emptied.directive?]
  have hadds (report : Report) :
      Report.Adds (.about .warning text l.position)
        (.ofList ((before ++ l :: after).filterMap directiveMessage?) ++ report)
        (.ofList ((before ++ l.emptied :: after).filterMap directiveMessage?) ++ report) := by
    refine .append ⟨before.filterMap directiveMessage?, after.filterMap directiveMessage?, ?_, ?_⟩ _
    · rw [Report.toList_ofList, List.filterMap_append, List.filterMap_cons_some hmessage]
    · rw [Report.toList_ofList, List.filterMap_append, List.filterMap_cons_none hnone]
  have hrequests := Includes.requests_emptied path before after hl
  unfold ofLines Includes.collect
  rw [hrequests]
  split
  · exact .failure _
  · split
    · exact .failure _
    · next found _ =>
      exact warned_ofStaged (warned_stages hexit hl houtside hoff _ (hadds found.report) rfl) rfl

/-! ### Examples -/

/-- A line with a directive that means nothing. -/
def pragmaLine : Line :=
  .ofRaw "main" 2 "#pragma once // or twice"

theorem unknown_pragmaLine : pragmaLine.Unknown :=
  ⟨⟨"pragma", "once"⟩, by decide +kernel, by decide⟩

/-- The beginning of a loop. -/
def loopStart : List Line :=
  Line.ofText "main" "again:\n mov *a, &r1"

/-- Its end. -/
def loopEnd : List Line :=
  [.ofRaw "main" 3 " jmp again"]

/-- A loop is compiled to the same program with the line and without it. The other message is that
    there is no memory layout. -/
theorem pragmaInLoop_emptied :
    pragmaLine.Unknown ∧ loopStart.foldl Line.opensMacro false = false ∧
      ¬ Layout.InDeclarations loopStart ∧
      ∃ c c' p p', ofLines ⟨[], []⟩ "main" (loopStart ++ pragmaLine :: loopEnd) .default = .ok c ∧
        ofLines ⟨[], []⟩ "main" (loopStart ++ pragmaLine.emptied :: loopEnd) .default = .ok c' ∧
        (c.report.toList.length = 2 ∧ c'.report.toList.length = 1) ∧
        c.program = some p ∧ c'.program = some p' ∧ p' = { p with parsed := p'.parsed } := by
  have hexit : Options.default.exitLevel = .error ∨ Options.default.exitLevel = .none := .inl rfl
  have houtside : loopStart.foldl Line.opensMacro false = false := by decide +kernel
  have hoff : ¬ Layout.InDeclarations loopStart := by decide +kernel
  obtain ⟨text, -, hwarned, -⟩ :=
    ofLines_emptied ⟨[], []⟩ "main" hexit loopStart loopEnd unknown_pragmaLine
  have hboth := hwarned houtside hoff
  obtain ⟨hrequests, hrequests'⟩ :
      Includes.requests "main" (loopStart ++ pragmaLine :: loopEnd) = [] ∧
        Includes.requests "main" (loopStart ++ pragmaLine.emptied :: loopEnd) = [] := by
    decide +kernel
  rw [ofLines_eq_ofStaged _ _ _ rfl hrequests, ofLines_eq_ofStaged _ _ _ rfl hrequests'] at hboth ⊢
  obtain ⟨p, p', hp, hp', heq⟩ := hboth.exists_program (by decide +kernel)
  exact ⟨unknown_pragmaLine, houtside, hoff, _, _, p, p', rfl, rfl, by decide +kernel, hp, hp', heq⟩

/-- The beginning of a macro. -/
def macroStart : List Line :=
  Line.ofText "main" "#macro two\n nop"

/-- Its end, and a use of it. -/
def macroEnd : List Line :=
  [.ofRaw "main" 3 " nop", .ofRaw "main" 4 "#endmacro", .ofRaw "main" 5 " two",
    .ofRaw "main" 6 " hlt"]

/-- Inside a macro the line is taken for code, which is an error where the macro is used. -/
theorem pragmaInMacro_not_warned :
    pragmaLine.Unknown ∧
      ∃ c c', ofLines ⟨[], []⟩ "main" (macroStart ++ pragmaLine :: macroEnd) .default = .ok c ∧
        ofLines ⟨[], []⟩ "main" (macroStart ++ pragmaLine.emptied :: macroEnd) .default = .ok c' ∧
        c.program.isSome = false ∧ c'.program.isSome = true ∧
        ∀ w, ¬ Warned w (.ok c) (.ok c') := by
  obtain ⟨hrequests, hrequests'⟩ :
      Includes.requests "main" (macroStart ++ pragmaLine :: macroEnd) = [] ∧
        Includes.requests "main" (macroStart ++ pragmaLine.emptied :: macroEnd) = [] := by
    decide +kernel
  obtain ⟨hnone, hsome⟩ :
      (ofStaged (stages .default (macroStart ++ pragmaLine :: macroEnd) []
          (.ofList ((macroStart ++ pragmaLine :: macroEnd).filterMap directiveMessage?) ++
            .empty))).program.isSome = false ∧
        (ofStaged (stages .default (macroStart ++ pragmaLine.emptied :: macroEnd) []
          (.ofList ((macroStart ++ pragmaLine.emptied :: macroEnd).filterMap directiveMessage?) ++
            .empty))).program.isSome = true := by
    decide +kernel
  refine ⟨unknown_pragmaLine, _, _, ofLines_eq_ofStaged _ _ _ rfl hrequests,
    ofLines_eq_ofStaged _ _ _ rfl hrequests', hnone, hsome, fun w h => ?_⟩
  exact absurd (hnone.symm.trans (h.isSome_program_eq.trans hsome)) (by decide)

end Compilation

end MacroAsm
