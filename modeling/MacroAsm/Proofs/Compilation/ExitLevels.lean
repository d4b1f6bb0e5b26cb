import MacroAsm.Proofs.Compilation.Stages

set_option autoImplicit false

/-! # Exit levels

The exit level decides how far a compilation goes, and nothing else. The higher it is, the fewer
messages reach it, so with a higher one the same stages go at least as far: either both runs are at
the same point, or the one with the lower level has stopped with a report that the other one has only
added to (`Staged.Behind`). This holds before the first stage and is kept by each of them, hence of
whole compilations (`Compilation.ofLines_exitLevel`). -/

namespace MacroAsm

/-! ## Reaching a level -/

/-- What reaches a level reaches all lower ones. -/
theorem Report.reached_of_le {r : Report} {lower higher : Level} (hle : lower ≤ higher)
    (h : r.reached higher = true) : r.reached lower = true := by
  simp only [reached, Bool.and_eq_true, bne_iff_ne, ne_eq, List.any_eq_true,
    decide_eq_true_eq] at h ⊢
  obtain ⟨hnone, m, hm, hlevel⟩ := h
  refine ⟨fun hlower => ?_, m, hm, Nat.le_trans hle hlevel⟩
  -- only the level that nothing reaches is not below it
  subst hlower
  rw [Level.le_def] at hle
  cases higher <;> simp [Level.rank] at hle hnone

/-! ## Two runs of the same stages -/

namespace Staged

variable {α β : Type} {lower higher : Level}

/-- A value is there exactly as long as the report does not reach the exit level. -/
def Checked (exitLevel : Level) (s : Staged α) : Prop :=
  s.value?.isSome = !s.report.reached exitLevel

theorem isChecked_checked (exitLevel : Level) (report : Report) (a : α) :
    (checked exitLevel report a).Checked exitLevel := by
  unfold Checked checked
  cases report.reached exitLevel with
  | true => rfl
  | false => rfl

theorem Checked.next {s : Staged α} {exitLevel : Level} (h : s.Checked exitLevel)
    (stage : α → β × Report) : (s.next exitLevel stage).Checked exitLevel := by
  obtain ⟨report, value?⟩ := s
  cases value? with
  | none => exact h
  | some a => exact isChecked_checked exitLevel _ _

/-- Of two runs of the same stages the first is at the same point as the second, or has stopped at its
    exit level on the way there. -/
inductive Behind (exitLevel : Level) : Staged α → Staged α → Prop
  | same (s : Staged α) : Behind exitLevel s s
  | stopped {report report' : Report} (value? : Option α)
      (hreached : report.reached exitLevel = true) (hmessages : report.toList <+: report'.toList) :
      Behind exitLevel ⟨report, none⟩ ⟨report', value?⟩

theorem behind_checked (hle : lower ≤ higher) (report : Report) (a : α) :
    Behind lower (checked lower report a) (checked higher report a) := by
  unfold checked
  by_cases hlower : report.reached lower = true
  · rw [if_pos hlower]
    exact .stopped _ hlower (List.prefix_refl _)
  · have hhigher : ¬ report.reached higher = true := fun h => hlower (Report.reached_of_le hle h)
    rw [if_neg hlower, if_neg hhigher]
    exact .same _

/-- A run that goes on only adds to its report. -/
theorem prefix_next (s : Staged α) (exitLevel : Level) (stage : α → β × Report) :
    s.report.toList <+: (s.next exitLevel stage).report.toList := by
  obtain ⟨report, value?⟩ := s
  cases value? with
  | none => exact List.prefix_refl _
  | some a =>
    simp only [next, checked, Report.toList_append]
    exact List.prefix_append _ _

/-- The same stage keeps the one run behind the other. -/
theorem Behind.next {s s' : Staged α} (h : Behind lower s s') (hle : lower ≤ higher)
    (stage : α → β × Report) : Behind lower (s.next lower stage) (s'.next higher stage) := by
  cases h with
  | same =>
    obtain ⟨report, value?⟩ := s
    cases value? with
    | none => exact .same _
    | some a => exact behind_checked hle _ _
  | @stopped report report' value? hreached hmessages =>
    have hnext := prefix_next ⟨report', value?⟩ higher stage
    exact .stopped _ hreached (hmessages.trans hnext)

end Staged

/-! ## Whole compilations -/

namespace Compilation

/-- Two outcomes of which the first is cut short, if at all: both are the same failure, or the messages
    of the first are the first ones of the second, and a program of the first is the outcome of the
    second as well. -/
inductive Truncates : Except Failure Compilation → Except Failure Compilation → Prop
  | failure (e : Failure) : Truncates (.error e) (.error e)
  | compilation {c c' : Compilation} (hmessages : c.report.toList <+: c'.report.toList)
      (hprogram : ∀ p, c.program = some p → c'.program = some p ∧ c'.report = c.report) :
      Truncates (.ok c) (.ok c')

variable (o : Options) (main : List Line) (files : List (List Line)) (report : Report)

/-- The stages take from the options nothing but the sizes and the exit level. -/
theorem stages_behind {lower higher : Level} (hle : lower ≤ higher) :
    Staged.Behind lower (stages { o with exitLevel := lower } main files report)
      (stages { o with exitLevel := higher } main files report) := by
  have hstart : Staged.Behind lower (.checked lower report ()) (.checked higher report ()) :=
    Staged.behind_checked hle report ()
  have h := ((((hstart.next hle fun _ => loadMacros (files ++ [main])).next hle
    fun table => table.expand (CodeLines.ofLines main)).next hle
    fun code =>
      ((code, ((Layout.find main).1.assign code o).1),
        (Layout.find main).2 ++ ((Layout.find main).1.assign code o).2)).next hle
    fun c => ((Listing.ofLines c.1, c.2), (Listing.ofLines c.1).report)).next hle
    fun c => Program.link (scopeOf o c.2 c.1.labels) c.1.parsed.toList
  exact h

theorem stages_checked : (stages o main files report).Checked o.exitLevel := by
  have h := (((((Staged.isChecked_checked o.exitLevel report ()).next
    fun _ => loadMacros (files ++ [main])).next
    fun table => table.expand (CodeLines.ofLines main)).next
    fun code =>
      ((code, ((Layout.find main).1.assign code o).1),
        (Layout.find main).2 ++ ((Layout.find main).1.assign code o).2)).next
    fun c => ((Listing.ofLines c.1, c.2), (Listing.ofLines c.1).report)).next
    fun c => Program.link (scopeOf o c.2 c.1.labels) c.1.parsed.toList
  exact h

/-- Stages that were cut short make an outcome that is cut short. -/
theorem truncates_of_behind {lower : Level} {s s' : Staged Program}
    (h : Staged.Behind lower s s') : Truncates (.ok (ofStaged s)) (.ok (ofStaged s')) := by
  cases h with
  | same => exact .compilation (List.prefix_refl _) fun p hp => ⟨hp, rfl⟩
  | stopped value? hreached hmessages =>
    refine .compilation hmessages fun p hp => ?_
    simp only [ofStaged, ite_self] at hp
    exact absurd hp (by simp)

/-- There is a program exactly when the report holds no error and does not reach the exit level. -/
theorem isSome_program_ofStaged {s : Staged Program} {exitLevel : Level}
    (h : s.Checked exitLevel) :
    (ofStaged s).program.isSome = true ↔
      (ofStaged s).report.hasError = false ∧ (ofStaged s).report.reached exitLevel = false := by
  unfold Staged.Checked at h
  simp only [ofStaged]
  cases s.report.hasError with
  | true => simp
  | false => simp [h]

theorem exitCode_eq_zero_iff {c : Compilation} {exitLevel : Level}
    (h : c.program.isSome = true ↔
      c.report.hasError = false ∧ c.report.reached exitLevel = false) :
    c.exitCode exitLevel = 0 ↔
      c.report.hasError = false ∧ c.report.reached exitLevel = false := by
  rw [← h]
  unfold exitCode
  cases hp : c.program with
  | none => simp
  | some p =>
    have hreached := (h.1 (by rw [hp]; rfl)).2
    simp [hreached]

/-- **A lower exit level only cuts a compilation short.** With all else equal, both levels lead to the
    same failure, or the messages of the lower one are the first ones of the higher one, and a program
    of the lower one is that of the higher one, with the same report. Whatever the level, there is a
    program, and the exit code is zero, exactly when the report holds no error and does not reach the
    level. -/
theorem ofLines_exitLevel (t : FileTree) (path : String) {lower higher : Level}
    (hle : lower ≤ higher) :
    Truncates (ofLines t path main { o with exitLevel := lower })
        (ofLines t path main { o with exitLevel := higher }) ∧
      ∀ c, ofLines t path main o = .ok c →
        (c.program.isSome = true ↔
          c.report.hasError = false ∧ c.report.reached o.exitLevel = false) ∧
        (c.exitCode o.exitLevel = 0 ↔
          c.report.hasError = false ∧ c.report.reached o.exitLevel = false) := by
  have hvalid (e : Level) : { o with exitLevel := e }.validate = o.validate := rfl
  constructor
  · -- options are checked and files are collected before the first message can stop anything
    cases hv : o.validate with
    | error e =>
      simp only [ofLines, hvalid, hv]
      exact .failure e
    | ok u =>
      cases hfound : Includes.collect t path main with
      | error e =>
        simp only [ofLines, hvalid, hv, hfound]
        exact .failure e
      | ok found =>
        simp only [ofLines, hvalid, hv, hfound]
        exact truncates_of_behind (stages_behind o main _ _ hle)
  · intro c h
    unfold ofLines at h
    split at h
    · simp at h
    · split at h
      · simp at h
      · next found _ =>
        obtain rfl := Except.ok.inj h
        have hprogram := isSome_program_ofStaged
          (stages_checked o main (found.files.toList.map Includes.Loaded.lines)
            (.ofList (main.filterMap directiveMessage?) ++ found.report))
        exact ⟨hprogram, exitCode_eq_zero_iff hprogram⟩

/-- A file with three warnings, found by the first, the fourth and the fifth stage: about a directive,
    a layout that is missing and a label. -/
def threeWarnings : List Line :=
  Line.ofText "main" "#pragma once\nagain:\nagain:\n out &r1\n jmp again"

/-- At the first of them a compilation stops, or it comes to its end and has a program. -/
theorem threeWarnings_exitLevel :
    Level.warning ≤ Level.error ∧
      ∃ c c', ofLines ⟨[], []⟩ "main" threeWarnings { Options.default with exitLevel := .warning } =
          .ok c ∧
        ofLines ⟨[], []⟩ "main" threeWarnings { Options.default with exitLevel := .error } = .ok c' ∧
        c.report.toList.length = 1 ∧ c'.report.toList.length = 3 ∧
        c.report.toList <+: c'.report.toList ∧ c.program.isSome = false ∧
        c'.program.isSome = true ∧ c'.exitCode .error = 0 := by
  have hle : Level.warning ≤ Level.error := by decide
  have hrequests : Includes.requests "main" threeWarnings = [] := by decide +kernel
  obtain ⟨htruncates, -⟩ := ofLines_exitLevel .default threeWarnings ⟨[], []⟩ "main" hle
  obtain ⟨-, hprogram⟩ := ofLines_exitLevel { Options.default with exitLevel := .error }
    threeWarnings ⟨[], []⟩ "main" hle
  rw [ofLines_eq_ofStaged _ _ _ rfl hrequests] at hprogram
  rw [ofLines_eq_ofStaged _ _ _ rfl hrequests,
    ofLines_eq_ofStaged _ _ _ rfl hrequests] at htruncates ⊢
  obtain ⟨hiff, hcode⟩ := hprogram _ rfl
  refine ⟨hle, _, _, rfl, rfl, by decide +kernel, by decide +kernel, ?_, by decide +kernel,
    hiff.2 (by decide +kernel), hcode.2 (by decide +kernel)⟩
  cases htruncates with
  | compilation hmessages _ => exact hmessages

end Compilation

end MacroAsm
