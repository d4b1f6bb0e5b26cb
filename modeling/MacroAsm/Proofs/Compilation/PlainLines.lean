import MacroAsm.Proofs.Compilation.Stages

set_option autoImplicit false

/-! # Files without directives

A file without directives includes nothing, defines no macros and asks for no layout. All of its lines
are code, and they stay as they are (`Compilation.expanded_of_plain`). -/

namespace MacroAsm

/-- No line is a directive. -/
def Plain (lines : List Line) : Prop :=
  ∀ l ∈ lines, l.directive? = none

variable {lines : List Line}

theorem Plain.tail {l : Line} (h : Plain (l :: lines)) : Plain lines :=
  fun k hk => h k (List.mem_cons_of_mem l hk)

theorem Includes.requests_of_plain (h : Plain lines) (path : String) :
    requests path lines = [] := by
  refine List.flatMap_eq_nil_iff.2 fun l hl => ?_
  unfold requestsOf
  rw [h l hl]

theorem CodeLines.ofLines_of_plain (h : Plain lines) : ofLines lines = lines := by
  have hfold : ∀ seen : Array Line, (lines.foldl step ⟨false, false, seen⟩).lines.toList =
      seen.toList ++ lines := by
    induction lines with
    | nil => simp
    | cons l lines ih =>
      intro seen
      have hstep : step ⟨false, false, seen⟩ l = ⟨false, false, seen.push l⟩ := by
        simp [step, h l List.mem_cons_self]
      rw [List.foldl_cons, hstep, ih h.tail]
      simp
  exact hfold #[]

theorem MacroTable.load_of_plain (h : Plain lines) (table : MacroTable) :
    table.load lines = (table, .empty) := by
  have hfold : lines.foldl MacroReader.step ⟨table, none, .empty⟩ = ⟨table, none, .empty⟩ := by
    induction lines with
    | nil => rfl
    | cons l lines ih =>
      have hstep : MacroReader.step ⟨table, none, .empty⟩ l = ⟨table, none, .empty⟩ := by
        simp [MacroReader.step, h l List.mem_cons_self]
      rw [List.foldl_cons, hstep, ih h.tail]
  unfold MacroTable.load
  rw [hfold]
  rfl

/-- Without macros there is nothing to expand. -/
theorem MacroTable.expand_empty (lines : List Line) :
    expand .empty lines = (lines, .ofList []) := by
  have hseek : ∀ before, Expansion.seek [] before lines = (before.reverse ++ lines, none) := by
    induction lines with
    | nil => simp [Expansion.seek]
    | cons l lines ih =>
      intro before
      have huse : Macro.use? [] l.code = none := rfl
      simp only [Expansion.seek, huse]
      rw [ih]
      simp
  have hexpand : Expansion.expandFrom [] Expansion.limit 1 lines = (lines, []) := by
    unfold Expansion.expandFrom
    rw [hseek []]
    rfl
  have hvalues : Registry.values (.empty : MacroTable) = [] := rfl
  unfold expand
  rw [hvalues, hexpand]

theorem Layout.find_of_plain (h : Plain lines) :
    find lines = (.default, Report.empty.push Search.absentMessage) := by
  have hfold : lines.foldl Search.step ⟨none, false, none, .empty⟩ =
      ⟨none, false, none, .empty⟩ := by
    induction lines with
    | nil => rfl
    | cons l lines ih =>
      have hstep : Search.step ⟨none, false, none, .empty⟩ l = ⟨none, false, none, .empty⟩ := by
        simp [Search.step, h l List.mem_cons_self]
      rw [List.foldl_cons, hstep, ih h.tail]
  unfold find
  rw [hfold]
  rfl

namespace Compilation

theorem directiveMessages_of_plain (h : Plain lines) : lines.filterMap directiveMessage? = [] := by
  refine List.filterMap_eq_nil_iff.2 fun l hl => ?_
  unfold directiveMessage?
  rw [h l hl]

theorem loadMacros_of_plain (h : Plain lines) :
    loadMacros [lines] = (.empty, .empty ++ .empty) := by
  simp only [loadMacros, List.foldl_cons, List.foldl_nil, MacroTable.load_of_plain h]

/-- The lines of a file without directives are its code. -/
theorem expanded_of_plain (h : Plain lines) : expanded lines [] = (lines, .ofList []) := by
  unfold expanded
  rw [List.nil_append, loadMacros_of_plain h, CodeLines.ofLines_of_plain h,
    MacroTable.expand_empty]

end Compilation

end MacroAsm
