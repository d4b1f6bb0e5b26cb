import MacroAsm.Compilation

set_option autoImplicit false

/-! # The stages of a compilation

What each stage of a compilation yields does not depend on the exit level: it is a function of the
files and the sizes. The exit level only decides whether the stages end early (`Staged.Yields`). A
compilation that yields a program went through all stages (`program_of_ofLines`), and one that finds
no error does so at the exit levels at which only errors stop it (`ofLines_eq_ok`). -/

namespace MacroAsm

/-! ## Reports -/

namespace Report

theorem reached_append (r s : Report) (exitLevel : Level) :
    (r ++ s).reached exitLevel = (r.reached exitLevel || s.reached exitLevel) := by
  simp [reached, List.any_append, Bool.and_or_distrib_left]

/-- Only errors reach the exit level `error`, and nothing reaches `none`. -/
theorem reached_eq_false_of_not_hasError {r : Report} {exitLevel : Level}
    (he : exitLevel = .error ∨ exitLevel = .none) (h : r.hasError = false) :
    r.reached exitLevel = false := by
  rcases he with rfl | rfl
  · simp only [hasError, List.any_eq_false, beq_iff_eq] at h
    simp only [reached, Bool.and_eq_false_iff, List.any_eq_false, decide_eq_true_eq]
    refine .inr fun m hm => ?_
    have hs := h m hm
    unfold Message.level
    cases hsev : m.severity with
    | info => simp [Severity.level, Level.le_def, Level.rank]
    | warning => simp [Severity.level, Level.le_def, Level.rank]
    | error => exact absurd hsev hs
  · rfl

end Report

/-! ## Going through a stage -/

namespace Staged

variable {α β : Type} {s : Staged α} {exitLevel : Level} {report : Report} {a : α}

/-- What has come of some stages that report and yield something when none is left out: all of it, or
    no value if the report reaches the exit level. -/
def Yields (s : Staged α) (exitLevel : Level) (report : Report) (a : α) : Prop :=
  if report.reached exitLevel then s.value? = none else s = ⟨report, some a⟩

theorem yields_checked : (checked exitLevel report a).Yields exitLevel report a := by
  unfold Yields checked
  split
  · rfl
  · rfl

/-- One more stage adds its report and replaces the value. -/
theorem Yields.next (h : s.Yields exitLevel report a) (stage : α → β × Report) :
    (s.next exitLevel stage).Yields exitLevel (report ++ (stage a).2) (stage a).1 := by
  unfold Yields at h
  split at h
  · next hr =>
    have hreached : (report ++ (stage a).2).reached exitLevel = true := by
      simp [Report.reached_append, hr]
    rw [Yields, if_pos hreached]
    simp [Staged.next, h]
  · subst h
    exact yields_checked

theorem Yields.eq_of_not_reached (h : s.Yields exitLevel report a)
    (hr : report.reached exitLevel = false) : s = ⟨report, some a⟩ := by
  unfold Yields at h
  rwa [hr, if_neg Bool.false_ne_true] at h

theorem Yields.eq_of_value {b : α} (h : s.Yields exitLevel report a) (hb : s.value? = some b) :
    s = ⟨report, some a⟩ ∧ b = a := by
  unfold Yields at h
  split at h
  · rw [h] at hb
    simp at hb
  · subst h
    exact ⟨rfl, (Option.some.inj hb).symm⟩

end Staged

/-- A file that asks for nothing includes no files. -/
theorem Includes.collect_eq_ok (t : FileTree) {path : String} {main : List Line}
    (h : requests path main = []) : collect t path main = .ok ⟨#[], .empty⟩ := by
  rw [collect, h]
  -- one unfolding, as the equation of the recursive case is costly and not needed
  unfold serve
  rfl

/-! ## What the stages yield -/

namespace Compilation

/-- The macros of the other files, and then those of a file. -/
theorem loadMacros_concat (files : List (List Line)) (main : List Line) :
    loadMacros (files ++ [main]) =
      (((loadMacros files).1.load main).1, (loadMacros files).2 ++
        ((loadMacros files).1.load main).2) := by
  unfold loadMacros
  rw [List.foldl_append]
  rfl

/-- A file that asks for no others goes through the stages on its own. -/
theorem ofLines_eq_ofStaged (o : Options) (main : List Line) (t : FileTree) {path : String}
    (hv : o.validate = .ok ()) (hrequests : Includes.requests path main = []) :
    ofLines t path main o =
      .ok (ofStaged (stages o main [] (.ofList (main.filterMap directiveMessage?) ++ .empty))) := by
  simp only [ofLines, hv, Includes.collect_eq_ok t hrequests]
  rfl

variable (o : Options) (main : List Line) (files : List (List Line))

/-- The code when all macros are expanded. -/
def expanded : List Line × Report :=
  (loadMacros (files ++ [main])).1.expand (CodeLines.ofLines main)

/-- The addresses of the variables. -/
def assigned : Variables × Report :=
  (Layout.find main).1.assign (expanded main files).1 o

/-- The statements with their slots. -/
def listed : Listing :=
  Listing.ofLines (expanded main files).1

/-- The sizes and tables by which the operands get their values. -/
def scope : Scope :=
  scopeOf o (assigned o main files).1 (listed main files).labels

/-- The program. -/
def linked : Program × Report :=
  Program.link (scope o main files) (listed main files).parsed.toList

/-- All that is reported when no stage is left out. -/
def fullReport (report : Report) : Report :=
  report ++ (loadMacros (files ++ [main])).2 ++ (expanded main files).2 ++
    ((Layout.find main).2 ++ (assigned o main files).2) ++ (listed main files).report ++
    (linked o main files).2

variable {o main files}

theorem stages_yields (report : Report) :
    (stages o main files report).Yields o.exitLevel (fullReport o main files report)
      (linked o main files).1 := by
  have hstart : (Staged.checked o.exitLevel report ()).Yields o.exitLevel report () :=
    Staged.yields_checked
  have h := ((((hstart.next fun _ => loadMacros (files ++ [main])).next
    fun table => table.expand (CodeLines.ofLines main)).next
    fun code =>
      ((code, ((Layout.find main).1.assign code o).1),
        (Layout.find main).2 ++ ((Layout.find main).1.assign code o).2)).next
    fun c => ((Listing.ofLines c.1, c.2), (Listing.ofLines c.1).report)).next
    fun c => Program.link (scopeOf o c.2 c.1.labels) c.1.parsed.toList
  exact h

/-- A compilation with a program went through all stages. -/
theorem program_of_ofLines {t : FileTree} {path : String} {c : Compilation} {p : Program}
    (h : ofLines t path main o = .ok c) (hp : c.program = some p) :
    o.validate = .ok () ∧ ∃ found, Includes.collect t path main = .ok found ∧
      p = (linked o main (found.files.toList.map Includes.Loaded.lines)).1 ∧
      (fullReport o main (found.files.toList.map Includes.Loaded.lines)
        (.ofList (main.filterMap directiveMessage?) ++ found.report)).hasError = false := by
  unfold ofLines at h
  split at h
  · simp at h
  · next hv =>
    split at h
    · simp at h
    · next found hfound =>
      obtain rfl := Except.ok.inj h
      unfold ofStaged at hp
      simp only at hp
      split at hp
      · simp at hp
      · next he =>
        obtain ⟨hs, rfl⟩ := (stages_yields _).eq_of_value hp
        rw [hs] at he
        exact ⟨hv, found, hfound, rfl, by simpa using he⟩

/-- A compilation that finds no error yields its program, unless a message that is no error may
    stop it. -/
theorem ofLines_eq_ok {t : FileTree} {path : String} {found : Includes.Collection}
    (hv : o.validate = .ok ()) (hfound : Includes.collect t path main = .ok found)
    (hfiles : found.files.toList.map Includes.Loaded.lines = files)
    (hexit : o.exitLevel = .error ∨ o.exitLevel = .none)
    (he : (fullReport o main files
      (.ofList (main.filterMap directiveMessage?) ++ found.report)).hasError = false) :
    ∃ c, ofLines t path main o = .ok c ∧ c.program = some (linked o main files).1 := by
  have hs := (stages_yields _).eq_of_not_reached (Report.reached_eq_false_of_not_hasError hexit he)
  refine ⟨ofStaged (stages o main files
    (.ofList (main.filterMap directiveMessage?) ++ found.report)), ?_, ?_⟩
  · simp only [ofLines, hv, hfound, hfiles]
  · simp only [ofStaged, hs, he]
    rfl

/-- The same for a file that includes no others. -/
theorem ofLines_eq_ok_of_requests (t : FileTree) {path : String} (hv : o.validate = .ok ())
    (hrequests : Includes.requests path main = [])
    (hexit : o.exitLevel = .error ∨ o.exitLevel = .none)
    (he : (fullReport o main []
      (.ofList (main.filterMap directiveMessage?) ++ .empty)).hasError = false) :
    ∃ c, ofLines t path main o = .ok c ∧ c.program = some (linked o main []).1 :=
  ofLines_eq_ok hv (Includes.collect_eq_ok t hrequests) rfl hexit he

end Compilation

end MacroAsm
