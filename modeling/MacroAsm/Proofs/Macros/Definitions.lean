import MacroAsm.Macros.Reader
import MacroAsm.Proofs.Source.Segments

set_option autoImplicit false

/-! # Definitions of macros

What is read from the lines of one definition is a function of these lines alone
(`MacroReader.definition`): the lines up to the first `...` are the top of the macro and those behind
it the bottom. Without an error the reader enters this macro in its table, and is behind the
definition as it was in front of it (`MacroReader.foldl_definition`). No line takes back an error. -/

namespace MacroAsm

/-! ## Parts of a body -/

/-- The code of some lines, without those that have none. -/
def codesOf (lines : List Line) : List String :=
  (lines.map Line.code).filter fun code => !code.isEmpty

/-- The top of a macro, given the lines between its first and its last one. -/
def topOf (body : List Line) : List String :=
  codesOf (body.takeWhile fun l => l.code != "...")

/-- The bottom of a macro. -/
def bottomOf (body : List Line) : List String :=
  codesOf ((body.dropWhile fun l => l.code != "...").drop 1)

/-- Whether a macro wraps a block. -/
def wrapsOf (body : List Line) : Bool :=
  body.any fun l => l.code == "..."

namespace MacroReader

/-- The text behind the name of a directive. -/
def restOf (l : Line) : String :=
  (l.directive?.map Directive.rest).getD ""

/-- The macro that a definition stands for. -/
def definition (start : Line) (body : List Line) (stop : Line) : Except MacroError Macro :=
  (Macro.ofParts (restOf start) (if (restOf stop).isEmpty then none else some (restOf stop))
    (topOf body) (bottomOf body) (wrapsOf body)).map fun m =>
      { m with position := some start.position }

variable {r : MacroReader} {l : Line}

/-! ## Errors stay -/

theorem hasError_addMessage (r : MacroReader) {m : Message} (h : m.severity = .error) :
    (r.addMessage m).report.hasError = true := by
  simp [addMessage, Report.hasError_push, h]

theorem faultless_of_addMessage {m : Message} (h : (r.addMessage m).report.hasError = false) :
    r.report.hasError = false := by
  rw [addMessage, Report.hasError_push, Bool.or_eq_false_iff] at h
  exact h.1

theorem hasError_define (r : MacroReader) (start : Line) (m : Macro) :
    (r.define start m).report.hasError = r.report.hasError := by
  unfold define
  dsimp only
  split
  · simp [addMessage, Report.hasError_push, redefinedMessage, Message.about, Message.withNote]
  · rfl

theorem faultless_of_finish {m : OpenMacro} {closer : String}
    (h : (r.finish m closer l).report.hasError = false) : r.report.hasError = false := by
  unfold finish at h
  dsimp only at h
  split at h
  · exact faultless_of_addMessage h
  · split at h
    · exact faultless_of_addMessage h
    · rwa [hasError_define] at h

theorem faultless_of_addLine {m : OpenMacro} (h : (r.addLine m l).report.hasError = false) :
    r.report.hasError = false := by
  unfold addLine at h
  dsimp only at h
  split at h
  · split at h
    · exact faultless_of_addMessage h
    · exact h
  · split at h
    · exact h
    · exact h

theorem faultless_of_step (h : (r.step l).report.hasError = false) :
    r.report.hasError = false := by
  unfold step at h
  split at h
  · exact h
  · exact faultless_of_addMessage h
  · exact h
  · exact faultless_of_addMessage h
  · exact faultless_of_finish h
  · exact faultless_of_addLine h

theorem faultless_of_foldl {lines : List Line}
    (h : (lines.foldl step r).report.hasError = false) : r.report.hasError = false := by
  induction lines generalizing r with
  | nil => exact h
  | cons l lines ih => exact faultless_of_step (ih h)

/-- A file without an error leaves no macro open. -/
theorem of_close (h : r.close.report.hasError = false) :
    r.current = none ∧ r.report.hasError = false := by
  unfold close at h
  split at h
  · next m hm =>
    rw [hasError_addMessage r (by rfl)] at h
    exact absurd h (by decide)
  · next hnone => exact ⟨hnone, h⟩

/-! ## Outside of macros -/

theorem step_of_other (h : r.current = none) (hbegin : l.isDirective "macro" = false)
    (hend : l.isDirective "endmacro" = false) : r.step l = r := by
  cases hd : l.directive? with
  | none => simp [step, h, hd]
  | some d =>
    obtain ⟨name, rest⟩ := d
    simp only [Line.isDirective_of_some hd, beq_eq_false_iff_ne, ne_eq] at hbegin hend
    unfold step
    split
    · next hd' => simp [hd'] at hd; exact absurd hd.1.symm hbegin
    · next hd' => simp [hd'] at hd; exact absurd hd.1.symm hend
    · rfl
    · next hcurrent _ => simp [h] at hcurrent
    · next hcurrent _ => simp [h] at hcurrent
    · next hcurrent _ _ => simp [h] at hcurrent

theorem step_of_start (h : r.current = none) (hl : l.isDirective "macro" = true) :
    r.step l = { r with current := some ⟨restOf l, l, [], [], false⟩ } := by
  obtain ⟨opener, hd⟩ := Line.exists_of_isDirective hl
  simp [step, h, hd, restOf]

theorem step_of_stray (h : r.current = none) (hl : l.isDirective "endmacro" = true) :
    r.step l = r.addMessage (strayEndMessage l) := by
  obtain ⟨closer, hd⟩ := Line.exists_of_isDirective hl
  simp only [step, h, hd]

theorem hasError_step_of_stop (h : r.current = none) (hl : l.isDirective "endmacro" = true) :
    (r.step l).report.hasError = true := by
  rw [step_of_stray h hl]
  exact hasError_addMessage r rfl

/-! ## Inside a macro -/

variable {m : OpenMacro}

theorem step_of_nested (h : r.current = some m) (hl : l.isDirective "macro" = true) :
    r.step l = r.addMessage (nestedMessage l) := by
  obtain ⟨opener, hd⟩ := Line.exists_of_isDirective hl
  simp only [step, h, hd]

theorem hasError_step_of_nested (h : r.current = some m) (hl : l.isDirective "macro" = true) :
    (r.step l).report.hasError = true := by
  rw [step_of_nested h hl]
  exact hasError_addMessage r rfl

theorem step_of_stop (h : r.current = some m) (hl : l.isDirective "endmacro" = true) :
    r.step l = r.finish m (restOf l) l := by
  obtain ⟨closer, hd⟩ := Line.exists_of_isDirective hl
  simp [step, h, hd, restOf]

theorem step_of_line (h : r.current = some m) (hbegin : l.isDirective "macro" = false)
    (hend : l.isDirective "endmacro" = false) : r.step l = r.addLine m l := by
  cases hd : l.directive? with
  | none => simp [step, h, hd]
  | some d =>
    obtain ⟨name, rest⟩ := d
    simp only [Line.isDirective_of_some hd, beq_eq_false_iff_ne, ne_eq] at hbegin hend
    unfold step
    split
    · next hcurrent _ => simp [h] at hcurrent
    · next hcurrent _ => simp [h] at hcurrent
    · next hcurrent _ _ => simp [h] at hcurrent
    · next hd' => simp [hd'] at hd; exact absurd hd.1.symm hbegin
    · next hd' => simp [hd'] at hd; exact absurd hd.1.symm hend
    · next hcurrent _ _ => rw [Option.some.inj (h.symm.trans hcurrent)]

theorem step_of_dots (h : r.current = some m) (hbegin : l.isDirective "macro" = false)
    (hend : l.isDirective "endmacro" = false) (hdots : l.code = "...") :
    ∃ report, (m.wraps = true → report.hasError = true) ∧
      r.step l = { r with current := some { m with wraps := true }, report } := by
  rw [step_of_line h hbegin hend, addLine, if_pos hdots]
  cases hwraps : m.wraps with
  | true => exact ⟨_, fun _ => hasError_addMessage r (by rfl), rfl⟩
  | false => exact ⟨r.report, by simp, rfl⟩

theorem step_of_empty (h : r.current = some m) (hbegin : l.isDirective "macro" = false)
    (hend : l.isDirective "endmacro" = false) (hempty : l.code.isEmpty = true) :
    r.step l = r := by
  have hdots : l.code ≠ "..." := by
    intro heq
    rw [heq] at hempty
    exact absurd hempty (by decide)
  rw [step_of_line h hbegin hend, addLine, if_neg hdots, if_pos hempty]

theorem step_of_code (h : r.current = some m) (hbegin : l.isDirective "macro" = false)
    (hend : l.isDirective "endmacro" = false) (hdots : l.code ≠ "...")
    (hempty : l.code.isEmpty = false) :
    r.step l = { r with current := some (OpenMacro.addCode m l.code) } := by
  rw [step_of_line h hbegin hend, addLine, if_neg hdots, hempty, if_neg Bool.false_ne_true]

/-! ## The body of a macro -/

/-- Behind the `...` the lines with code make up the bottom, and a second `...` is an error. -/
theorem foldl_bottom {body : List Line} (h : r.current = some m) (hwraps : m.wraps = true)
    (hbody : ∀ l ∈ body, l.isDirective "macro" = false ∧ l.isDirective "endmacro" = false)
    (he : (body.foldl step r).report.hasError = false) :
    body.foldl step r =
      { r with current := some { m with bottom := (codesOf body).reverse ++ m.bottom } } := by
  induction body generalizing r m with
  | nil =>
    obtain ⟨table, current, report⟩ := r
    obtain rfl : current = some m := h
    rfl
  | cons l body ih =>
    obtain ⟨hbegin, hend⟩ := hbody l List.mem_cons_self
    have htail := fun k hk => hbody k (List.mem_cons_of_mem l hk)
    rw [List.foldl_cons] at he ⊢
    by_cases hdots : l.code = "..."
    · obtain ⟨report, herror, hstep⟩ := step_of_dots h hbegin hend hdots
      have hhere := faultless_of_foldl he
      rw [hstep] at hhere
      exact absurd ((herror hwraps).symm.trans hhere) (by decide)
    · cases hempty : l.code.isEmpty with
      | true =>
        have hcodes : codesOf (l :: body) = codesOf body := by simp [codesOf, hempty]
        rw [step_of_empty h hbegin hend hempty] at he ⊢
        rw [ih h hwraps htail he, hcodes]
      | false =>
        have hcodes : codesOf (l :: body) = l.code :: codesOf body := by simp [codesOf, hempty]
        have hadd : OpenMacro.addCode m l.code = { m with bottom := l.code :: m.bottom } := by
          rw [OpenMacro.addCode, if_pos hwraps]
        rw [step_of_code h hbegin hend hdots hempty, hadd] at he ⊢
        rw [ih (m := { m with bottom := l.code :: m.bottom }) rfl hwraps htail he, hcodes,
          List.reverse_cons, List.append_assoc]
        rfl

/-- The lines with code in front of the `...` make up the top, and those behind it the bottom. -/
theorem foldl_body {body : List Line} (h : r.current = some m) (hwraps : m.wraps = false)
    (hbody : ∀ l ∈ body, l.isDirective "macro" = false ∧ l.isDirective "endmacro" = false)
    (he : (body.foldl step r).report.hasError = false) :
    ∃ report, report.hasError = false ∧ body.foldl step r =
      { r with
        current := some { m with
          top := (topOf body).reverse ++ m.top
          bottom := (bottomOf body).reverse ++ m.bottom
          wraps := wrapsOf body }
        report } := by
  induction body generalizing r m with
  | nil =>
    obtain ⟨table, current, report⟩ := r
    obtain rfl : current = some m := h
    refine ⟨report, he, ?_⟩
    simp [topOf, bottomOf, wrapsOf, codesOf, ← hwraps]
  | cons l body ih =>
    obtain ⟨hbegin, hend⟩ := hbody l List.mem_cons_self
    have htail := fun k hk => hbody k (List.mem_cons_of_mem l hk)
    rw [List.foldl_cons] at he ⊢
    by_cases hdots : l.code = "..."
    · obtain ⟨report, -, hstep⟩ := step_of_dots h hbegin hend hdots
      rw [hstep] at he ⊢
      have hreport := faultless_of_foldl he
      rw [foldl_bottom rfl rfl htail he]
      refine ⟨report, hreport, ?_⟩
      simp [topOf, bottomOf, wrapsOf, codesOf, hdots]
    · have hne : (l.code != "...") = true := by simpa using hdots
      have hbottom : bottomOf (l :: body) = bottomOf body := by simp [bottomOf, hne]
      have hwrapsOf : wrapsOf (l :: body) = wrapsOf body := by simp [wrapsOf, hdots]
      cases hempty : l.code.isEmpty with
      | true =>
        have htop : topOf (l :: body) = topOf body := by simp [topOf, codesOf, hne, hempty]
        rw [step_of_empty h hbegin hend hempty] at he ⊢
        rw [htop, hbottom, hwrapsOf]
        exact ih h hwraps htail he
      | false =>
        have htop : topOf (l :: body) = l.code :: topOf body := by
          simp [topOf, codesOf, hne, hempty]
        have hadd : OpenMacro.addCode m l.code = { m with top := l.code :: m.top } := by
          rw [OpenMacro.addCode, if_neg (by simp [hwraps])]
        rw [step_of_code h hbegin hend hdots hempty, hadd] at he ⊢
        obtain ⟨report, hreport, heq⟩ :=
          ih (m := { m with top := l.code :: m.top }) rfl hwraps htail he
        refine ⟨report, hreport, ?_⟩
        rw [heq, htop, hbottom, hwrapsOf, List.reverse_cons, List.append_assoc]
        rfl

/-! ## Definitions -/

theorem finish_eq {closer : String} (he : (r.finish m closer l).report.hasError = false) :
    ∃ mac, Macro.ofParts m.opener (if closer.isEmpty then none else some closer)
        m.top.reverse m.bottom.reverse m.wraps = .ok mac ∧
      ∃ report, r.finish m closer l =
        ⟨r.table.insert mac.name { mac with position := some m.start.position }, none, report⟩ := by
  unfold finish at he ⊢
  dsimp only at he ⊢
  split at he
  · rw [hasError_addMessage _ (by rfl)] at he
    exact absurd he (by decide)
  · next hcloser =>
    rw [if_neg hcloser]
    split at he
    · rw [hasError_addMessage _ (by rfl)] at he
      exact absurd he (by decide)
    · next mac hmac =>
      refine ⟨mac, hmac, ?_⟩
      unfold define
      dsimp only
      split
      · exact ⟨_, rfl⟩
      · exact ⟨_, rfl⟩

/-- Without an error a definition enters its macro in the table, and nothing else comes of it. -/
theorem foldl_definition {start stop : Line} {body : List Line} (h : r.current = none)
    (hvalid : (Segment.definition start body stop).Valid)
    (he : ((Segment.definition start body stop).lines.foldl step r).report.hasError = false) :
    ∃ mac, definition start body stop = .ok mac ∧ ∃ report,
      (Segment.definition start body stop).lines.foldl step r =
        ⟨r.table.insert mac.name mac, none, report⟩ := by
  obtain ⟨hstart, hbody, hstop⟩ := hvalid
  rw [Segment.lines, List.foldl_cons, step_of_start h hstart, List.foldl_append, List.foldl_cons,
    List.foldl_nil] at he ⊢
  obtain ⟨report, -, hfold⟩ := foldl_body rfl rfl hbody (faultless_of_step he)
  rw [hfold, step_of_stop rfl hstop] at he ⊢
  obtain ⟨mac, hmac, report, heq⟩ := finish_eq he
  simp only [List.append_nil, List.reverse_reverse] at hmac
  refine ⟨{ mac with position := some start.position }, ?_, report, heq⟩
  rw [definition, hmac]
  rfl

/-! ## Where macros are open -/

theorem current_finish (r : MacroReader) (m : OpenMacro) (closer : String) (l : Line) :
    (r.finish m closer l).current = none := by
  unfold finish define
  dsimp only
  split
  · rfl
  · split
    · rfl
    · split
      · rfl
      · rfl

theorem isSome_current_addLine (h : r.current.isSome = true) (m : OpenMacro) (l : Line) :
    (r.addLine m l).current.isSome = true := by
  unfold addLine
  split
  · rfl
  · split
    · exact h
    · rfl

/-- A macro is being read between the lines that begin and end one. -/
theorem isSome_current_step (r : MacroReader) (l : Line) :
    (r.step l).current.isSome = l.opensMacro r.current.isSome := by
  unfold Line.opensMacro
  cases hbegin : l.isDirective "macro" with
  | true =>
    rw [if_pos rfl]
    cases hcurrent : r.current with
    | none => rw [step_of_start hcurrent hbegin]; rfl
    | some m => rw [step_of_nested hcurrent hbegin, addMessage, hcurrent]; rfl
  | false =>
    rw [if_neg Bool.false_ne_true]
    cases hend : l.isDirective "endmacro" with
    | true =>
      rw [if_pos rfl]
      cases hcurrent : r.current with
      | none => rw [step_of_stray hcurrent hend, addMessage, hcurrent]; rfl
      | some m => rw [step_of_stop hcurrent hend, current_finish]; rfl
    | false =>
      rw [if_neg Bool.false_ne_true]
      cases hcurrent : r.current with
      | none => rw [step_of_other hcurrent hbegin hend, hcurrent]
      | some m =>
        rw [step_of_line hcurrent hbegin hend]
        exact isSome_current_addLine (by rw [hcurrent]; rfl) m l

theorem isSome_current_foldl_step (r : MacroReader) (lines : List Line) :
    (lines.foldl step r).current.isSome = lines.foldl Line.opensMacro r.current.isSome := by
  induction lines generalizing r with
  | nil => rfl
  | cons l lines ih => rw [List.foldl_cons, ih, isSome_current_step, List.foldl_cons]

/-- A macro that was begun stays open up to a line that ends one. -/
theorem isSome_current_foldl {body : List Line} (h : r.current.isSome = true)
    (hbody : ∀ l ∈ body, l.isDirective "macro" = false ∧ l.isDirective "endmacro" = false) :
    (body.foldl step r).current.isSome = true := by
  rw [isSome_current_foldl_step, h]
  refine foldl_eq_self fun l hl => ?_
  obtain ⟨hbegin, hend⟩ := hbody l hl
  simp [Line.opensMacro, hbegin, hend]

end MacroReader

/-! ## Segments -/

/-- The macro that a segment defines, or why there is none. -/
def Segment.defined? : Segment → Option (Except MacroError Macro)
  | definition start body stop => some (MacroReader.definition start body stop)
  | _ => none

namespace MacroReader

variable {r : MacroReader}

/-- Outside of macros only definitions count. -/
theorem foldl_segment_of_other {g : Segment} (hg : g.Valid) (hother : g.defined? = none)
    (h : r.current = none) : g.lines.foldl step r = r := by
  have hcode {l : Line} (hl : l.directive? = none) : r.step l = r :=
    step_of_other h (Line.isDirective_of_none hl _) (Line.isDirective_of_none hl _)
  cases g with
  | code l => exact hcode hg
  | directive l => exact step_of_other h hg.2.1 hg.2.2.1
  | definition start body stop => simp [Segment.defined?] at hother
  | declarations start body stop =>
    obtain ⟨hstart, hbody, hstop⟩ := hg
    obtain ⟨rest, kind, hd, -, -⟩ := Line.exists_of_opensBlock hstart
    obtain ⟨words, hd'⟩ := Line.exists_of_isDirective hstop
    refine foldl_eq_self fun l hl => ?_
    rcases List.mem_cons.1 hl with rfl | hl
    · exact step_of_other h (Line.isDirective_of_some hd _) (Line.isDirective_of_some hd _)
    · rcases List.mem_append.1 hl with hl | hl
      · exact hcode (hbody l hl)
      · obtain rfl := List.mem_singleton.1 hl
        exact step_of_other h (Line.isDirective_of_some hd' _) (Line.isDirective_of_some hd' _)

/-- The macros of a file are those that its segments define, entered one after the other. -/
theorem foldl_segments {ss : List Segment} (hss : ∀ g ∈ ss, g.Valid) (h : r.current = none)
    (he : ((ss.flatMap Segment.lines).foldl step r).report.hasError = false) :
    ∃ macros : List Macro, ss.filterMap Segment.defined? = macros.map .ok ∧
      ((ss.flatMap Segment.lines).foldl step r).table =
        macros.foldl (fun table m => table.insert m.name m) r.table := by
  induction ss generalizing r with
  | nil => exact ⟨[], rfl, rfl⟩
  | cons g ss ih =>
    have hg := hss g List.mem_cons_self
    have htail := fun k hk => hss k (List.mem_cons_of_mem g hk)
    rw [List.flatMap_cons, List.foldl_append] at he ⊢
    cases hdefined : g.defined? with
    | none =>
      rw [foldl_segment_of_other hg hdefined h] at he ⊢
      rw [List.filterMap_cons_none hdefined]
      exact ih htail h he
    | some mac? =>
      cases g with
      | definition start body stop =>
        obtain ⟨mac, hmac, report, heq⟩ := foldl_definition h hg (faultless_of_foldl he)
        rw [heq] at he ⊢
        obtain ⟨macros, hmacros, htable⟩ := ih htail rfl he
        refine ⟨mac :: macros, ?_, htable⟩
        have hsome : (Segment.definition start body stop).defined? = some (.ok mac) :=
          congrArg some hmac
        rw [List.filterMap_cons_some hsome, hmacros, List.map_cons]
      | _ => simp [Segment.defined?] at hdefined

end MacroReader

/-- Without an error no macro is left open. -/
theorem MacroTable.load_eq {table : MacroTable} {lines : List Line}
    (h : (table.load lines).2.hasError = false) :
    (lines.foldl MacroReader.step ⟨table, none, .empty⟩).current = none ∧
      (lines.foldl MacroReader.step ⟨table, none, .empty⟩).report.hasError = false ∧
      (table.load lines).1 = (lines.foldl MacroReader.step ⟨table, none, .empty⟩).table := by
  obtain ⟨hcurrent, hreport⟩ := MacroReader.of_close h
  refine ⟨hcurrent, hreport, ?_⟩
  simp only [load, MacroReader.close, hcurrent]

end MacroAsm
