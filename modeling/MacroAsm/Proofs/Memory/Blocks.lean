import MacroAsm.Proofs.Memory.Search
import MacroAsm.Proofs.Source.Segments

set_option autoImplicit false

/-! # Layouts and segments

The search of a layout, one segment of the file after the other. A segment that asks for a layout is
taken as the layout if none was found before, with the declarations of the segment
(`Layout.Search.foldl_segment`); all other segments are passed over. A directive among declarations
is always an error (`Layout.directive?_of_readDeclarations`), so without errors declarations are what
a segment says they are. -/

namespace MacroAsm

/-! ## Words -/

theorem Text.exists_words_cons {c : Char} (hc : isBlank c = false) (cs : List Char) :
    ∃ w ws, words (c :: cs) = (c :: w) :: ws := by
  unfold words
  rw [List.splitOnP_cons_eq_if_modifyHead, hc, if_neg Bool.false_ne_true]
  cases hsplit : cs.splitOnP isBlank with
  | nil => exact absurd hsplit (List.splitOnP_ne_nil _ _)
  | cons w ws => exact ⟨w, ws.filter fun w => !w.isEmpty, rfl⟩

theorem Line.exists_of_directive {l : Line} {d : Directive} (h : l.directive? = some d) :
    ∃ cs, l.code.toList = '#' :: cs := by
  unfold directive? at h
  split at h
  · next cs hcs => exact ⟨cs, hcs⟩
  · simp at h

namespace Layout

/-! ## Declarations without an error -/

theorem exists_declared_eq_error (w : List Char) (address : Option Nat) :
    ∃ e, declared ('#' :: w) address = .error e := by
  have hname : isIdentChars (stripMark '*' ('#' :: w)) = false := by
    rw [stripMark, List.dropWhile_cons_of_neg (by decide)]
    rfl
  exact ⟨_, by simp only [declared, hname]; rfl⟩

/-- Nothing is declared by words that begin with a `#`. -/
theorem exists_readDeclaration_eq_error (kind : LayoutKind) (w : List Char)
    (ws : List (List Char)) : ∃ e, readDeclaration kind (('#' :: w) :: ws) = .error e := by
  unfold readDeclaration
  split
  · next heq =>
    obtain ⟨rfl, -⟩ := List.cons.inj heq
    exact exists_declared_eq_error w none
  · next heq =>
    obtain ⟨rfl, -⟩ := List.cons.inj heq
    dsimp only
    split
    · exact exists_declared_eq_error w _
    · exact ⟨_, rfl⟩
  · exact ⟨_, rfl⟩
  · exact ⟨_, rfl⟩

namespace Declarations

variable {kind : LayoutKind} {ds : Declarations} {l : Line}

theorem faultless_of_step (h : (ds.step kind l).report.hasError = false) :
    ds.report.hasError = false ∧ l.directive? = none := by
  unfold step at h
  split at h
  · next hempty =>
    refine ⟨h, ?_⟩
    cases hd : l.directive? with
    | none => rfl
    | some d =>
      obtain ⟨cs, hcs⟩ := Line.exists_of_directive hd
      rw [String.isEmpty_iff.1 hempty] at hcs
      simp at hcs
  · split at h
    · simp [Report.hasError_push, Message.about] at h
    · next name address hread =>
      have hcode : l.directive? = none := by
        cases hd : l.directive? with
        | none => rfl
        | some d =>
          obtain ⟨cs, hcs⟩ := Line.exists_of_directive hd
          obtain ⟨w, ws, hwords⟩ := Text.exists_words_cons (c := '#') (by decide) cs
          obtain ⟨e, herror⟩ := exists_readDeclaration_eq_error kind w ws
          rw [hcs, hwords, herror] at hread
          simp at hread
      refine ⟨?_, hcode⟩
      split at h
      · rw [Report.hasError_push, Bool.or_eq_false_iff] at h
        exact h.1
      · exact h

theorem faultless_of_foldl {lines : List Line}
    (h : (lines.foldl (step kind) ds).report.hasError = false) :
    ds.report.hasError = false ∧ ∀ l ∈ lines, l.directive? = none := by
  induction lines generalizing ds with
  | nil => exact ⟨h, by simp⟩
  | cons l lines ih =>
    obtain ⟨hhere, htail⟩ := ih h
    obtain ⟨hds, hl⟩ := faultless_of_step hhere
    exact ⟨hds, List.forall_mem_cons.2 ⟨hl, htail⟩⟩

end Declarations

/-- There is no directive among lines that are read as declarations without an error. -/
theorem directive?_of_readDeclarations {kind : LayoutKind} {lines : List Line}
    (h : (readDeclarations kind lines).2.hasError = false) : ∀ l ∈ lines, l.directive? = none :=
  (Declarations.faultless_of_foldl h).2

namespace Search

variable {s : Search} {l : Line} {b : Block}

/-! ## Errors stay -/

theorem faultless_of_take (h : (s.take b).report.hasError = false) :
    s.report.hasError = false ∧
      (s.found = none → (readDeclarations b.kind b.lines.reverse).2.hasError = false) := by
  cases hfound : s.found with
  | none =>
    rw [take_of_not_found hfound, Report.hasError_append, Bool.or_eq_false_iff] at h
    exact ⟨h.1, fun _ => h.2⟩
  | some first =>
    rw [take_of_found hfound, Report.hasError_push, Bool.or_eq_false_iff] at h
    exact ⟨h.1, by simp⟩

theorem faultless_of_step (h : (s.step l).report.hasError = false) :
    s.report.hasError = false := by
  cases hcurrent : s.current with
  | some b =>
    rw [step_of_current hcurrent] at h
    split at h
    · exact (faultless_of_take h).1
    · exact h
  | none =>
    cases hl : l.directive? with
    | none => rwa [step_of_code hcurrent hl] at h
    | some d =>
      rw [step_of_directive hcurrent hl] at h
      split at h
      · exact h
      · split at h
        · exact h
        · split at h
          · split at h
            · rw [addMessage, Report.hasError_push, Bool.or_eq_false_iff] at h
              exact h.1
            · next kind _ =>
              obtain ⟨balance, report, hreport, heq⟩ := s.exists_begin_eq l kind d.rest
              rw [heq] at h
              rw [← hreport]
              split at h
              · exact h
              · exact (faultless_of_take h).1
          · exact h

theorem faultless_of_foldl {lines : List Line}
    (h : (lines.foldl step s).report.hasError = false) : s.report.hasError = false := by
  induction lines generalizing s with
  | nil => exact h
  | cons l lines ih => exact faultless_of_step (ih h)

/-- A file without an error leaves no declarations open. -/
theorem of_close (h : s.close.report.hasError = false) :
    s.current = none ∧ s.report.hasError = false := by
  unfold close at h
  split at h
  · next b hb =>
    have hunended := (faultless_of_take h).1
    simp [addMessage, Report.hasError_push, unendedMessage, Message.about] at hunended
  · next hnone => exact ⟨hnone, h⟩

/-! ## Segments -/

/-- Lines that do not end the declarations are added to them. -/
theorem foldl_block_lines {body : List Line} (h : s.current = some b)
    (hbody : ∀ l ∈ body, l.isDirective endName = false) :
    body.foldl step s = { s with current := some { b with lines := body.reverse ++ b.lines } } := by
  induction body generalizing s b with
  | nil =>
    obtain ⟨found, inMacro, current, report⟩ := s
    obtain rfl : current = some b := h
    rfl
  | cons l body ih =>
    have hl := hbody l List.mem_cons_self
    rw [List.foldl_cons, step_of_current h, hl, if_neg Bool.false_ne_true,
      ih (b := { b with lines := l :: b.lines }) rfl
        fun k hk => hbody k (List.mem_cons_of_mem l hk)]
    simp

theorem step_of_stop (h : s.current = some b) (hl : l.isDirective endName = true) :
    s.step l = s.take b := by
  rw [step_of_current h, if_pos hl]

/-- What a block holds that is read from a segment. -/
structure AskedBy (b : Block) (g : Segment) : Prop where
  start : b.start = g.first
  lines : b.lines.reverse = g.declared
  hasBlock : b.kind.hasBlock = g.declarations?.isSome

section Segments

variable (found : Option Layout) (report : Report)

theorem exists_take_eq (inMacro : Bool) (current : Option Block) (b : Block) :
    ∃ report', Search.take ⟨found, inMacro, current, report⟩ b =
      ⟨found.or (some b.layout), inMacro, none, report'⟩ := by
  cases found with
  | none => exact ⟨_, take_of_not_found rfl⟩
  | some first => exact ⟨_, take_of_found rfl⟩

/-- Where a line asks for a layout with declarations, these are read from there on. -/
theorem exists_step_of_opensBlock (hl : l.opensBlock = true) :
    ∃ kind balance report', kind.hasBlock = true ∧ report'.hasError = report.hasError ∧
      step ⟨found, false, none, report⟩ l =
        ⟨found, false, some ⟨kind, balance, l, []⟩, report'⟩ := by
  obtain ⟨rest, kind, hd, hkind, hblock⟩ := Line.exists_of_opensBlock hl
  obtain ⟨balance, report', hreport, heq⟩ :=
    exists_begin_eq ⟨found, false, none, report⟩ l kind rest
  rw [hblock, if_pos rfl] at heq
  refine ⟨kind, balance, report', hblock, hreport, ?_⟩
  rw [step_of_directive rfl hd]
  simp [directiveName, hkind, heq]

/-- Outside of macros a directive that begins nothing asks for a layout at most. -/
theorem step_of_valid_directive (hl : (Segment.directive l).Valid) :
    (l.asksLayout = false ∧ ∃ report',
        step ⟨found, false, none, report⟩ l = ⟨found, false, none, report'⟩) ∨
      (l.asksLayout = true ∧ ∃ (b : Block) (report' : Report), AskedBy b (.directive l) ∧
        step ⟨found, false, none, report⟩ l = ⟨found.or (some b.layout), false, none, report'⟩) := by
  obtain ⟨hsome, hbegin, hend, hblock⟩ := hl
  obtain ⟨d, hd⟩ := Option.isSome_iff_exists.1 hsome
  simp only [Line.isDirective_of_some hd, beq_eq_false_iff_ne, ne_eq] at hbegin hend
  rw [step_of_directive rfl hd, if_neg hbegin, if_neg hend]
  by_cases hname : d.name = directiveName
  · cases hkind : LayoutKind.parse d.rest with
    | error e =>
      refine .inl ⟨by simp [Line.asksLayout, hd, hkind, Except.isOk, Except.toBool], ?_⟩
      exact ⟨_, by simp [hname]; rfl⟩
    | ok kind =>
      have hnone : kind.hasBlock = false := by
        simpa [Line.opensBlock, hd, hname, CodeLines.opensBlock, hkind] using hblock
      refine .inr ⟨by simp [Line.asksLayout, hd, hname, hkind, Except.isOk, Except.toBool], ?_⟩
      obtain ⟨balance, report', -, heq⟩ :=
        exists_begin_eq ⟨found, false, none, report⟩ l kind d.rest
      obtain ⟨report'', htake⟩ := exists_take_eq found report' false none ⟨kind, balance, l, []⟩
      rw [hnone, if_neg Bool.false_ne_true] at heq
      refine ⟨⟨kind, balance, l, []⟩, report'', ⟨rfl, rfl, hnone⟩, ?_⟩
      simpa [hname] using heq.trans htake
  · refine .inl ⟨by simp [Line.asksLayout, hd, hname], report, by simp [hname]⟩

/-- Inside a macro only its end counts. -/
theorem step_inside (hl : l.isDirective "macro" = false ∧ l.isDirective "endmacro" = false) :
    step ⟨found, true, none, report⟩ l = ⟨found, true, none, report⟩ := by
  cases hd : l.directive? with
  | none => exact step_of_code rfl hd
  | some d =>
    simp only [Line.isDirective_of_some hd, beq_eq_false_iff_ne, ne_eq] at hl
    rw [step_of_directive rfl hd]
    simp [hl.1, hl.2]

/-- Behind a segment the search is where it was, unless the segment asks for a layout and none was
    found before. -/
theorem foldl_segment {g : Segment} (hg : g.Valid) : ∃ found' report',
    g.lines.foldl step ⟨found, false, none, report⟩ = ⟨found', false, none, report'⟩ ∧
      (g.asksLayout = false → found' = found) ∧
      (g.asksLayout = true → ∃ b : Block, AskedBy b g ∧ found' = found.or (some b.layout)) := by
  cases g with
  | code l =>
    have hstep : step ⟨found, false, none, report⟩ l = ⟨found, false, none, report⟩ :=
      step_of_code rfl hg
    exact ⟨found, report, hstep, fun _ => rfl, fun h => absurd h (by simp [Segment.asksLayout])⟩
  | directive l =>
    rcases step_of_valid_directive found report hg with
      ⟨hasks, report', heq⟩ | ⟨hasks, b, report', hb, heq⟩
    · exact ⟨found, report', heq, fun _ => rfl, fun h => absurd (hasks.symm.trans h) (by decide)⟩
    · exact ⟨_, report', heq, fun h => absurd (hasks.symm.trans h) (by decide),
        fun _ => ⟨b, hb, rfl⟩⟩
  | definition start body stop =>
    obtain ⟨hstart, hbody, hstop⟩ := hg
    obtain ⟨opener, hd⟩ := Line.exists_of_isDirective hstart
    obtain ⟨closer, hd'⟩ := Line.exists_of_isDirective hstop
    have hopen : step ⟨found, false, none, report⟩ start = ⟨found, true, none, report⟩ := by
      rw [step_of_directive rfl hd]
      rfl
    refine ⟨found, report, ?_, fun _ => rfl, fun h => absurd h (by simp [Segment.asksLayout])⟩
    rw [Segment.lines, foldl_block]
    · rw [hopen, step_of_directive rfl hd']
      rfl
    · intro l hl
      rw [hopen]
      exact step_inside found report (hbody l hl)
  | declarations start body stop =>
    obtain ⟨hstart, hbody, hstop⟩ := hg
    obtain ⟨kind, balance, report', hblock, -, hopen⟩ :=
      exists_step_of_opensBlock found report hstart
    obtain ⟨report'', htake⟩ := exists_take_eq found report' false
      (some ⟨kind, balance, start, body.reverse ++ []⟩) ⟨kind, balance, start, body.reverse ++ []⟩
    have hasked : AskedBy ⟨kind, balance, start, body.reverse ++ []⟩ (.declarations start body stop) :=
      ⟨rfl, by simp [Segment.declared], hblock⟩
    refine ⟨_, report'', ?_, fun h => ?_, fun _ => ⟨_, hasked, rfl⟩⟩
    · rw [Segment.lines, List.foldl_cons, hopen, List.foldl_append,
        foldl_block_lines rfl fun l hl => Line.isDirective_of_none (hbody l hl) _]
      exact (step_of_stop rfl hstop).trans htake
    · exact absurd (h.symm.trans (Line.asksLayout_of_opensBlock hstart)) (by decide)

end Segments

end Search

/-- Without an error all that was begun is ended, and the layout is what was found. -/
theorem find_eq {lines : List Line} (h : (find lines).2.hasError = false) :
    (lines.foldl Search.step ⟨none, false, none, .empty⟩).current = none ∧
      (lines.foldl Search.step ⟨none, false, none, .empty⟩).report.hasError = false ∧
      (find lines).1 =
        (lines.foldl Search.step ⟨none, false, none, .empty⟩).found.getD default := by
  have hclose : (lines.foldl Search.step ⟨none, false, none, .empty⟩).close.report.hasError =
      false := by
    unfold find at h
    dsimp only at h
    split at h
    · exact h
    · rw [Report.hasError_push, Bool.or_eq_false_iff] at h
      exact h.1
  obtain ⟨hcurrent, hreport⟩ := Search.of_close hclose
  refine ⟨hcurrent, hreport, ?_⟩
  have heq : (lines.foldl Search.step ⟨none, false, none, .empty⟩).close =
      lines.foldl Search.step ⟨none, false, none, .empty⟩ := by
    rw [Search.close, hcurrent]
  unfold find
  rw [heq]
  dsimp only
  split
  · next layout hfound => rw [hfound, Option.getD_some]
  · next hfound => rw [hfound, Option.getD_none]

end Layout

end MacroAsm
