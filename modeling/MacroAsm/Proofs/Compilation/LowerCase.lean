import MacroAsm.Proofs.Compilation.Stages
import MacroAsm.Proofs.Isa.Operands
import MacroAsm.Proofs.Macros.Characters
import MacroAsm.Proofs.Text.LowerCase

set_option autoImplicit false

/-! # Code in lower case

All code of a compilation is in lower case: that of source lines because it is brought to it, that of
macros because it is taken from source lines, and so all that macros expand to
(`Compilation.lowered_expanded`). -/

namespace MacroAsm

/-! ## Source lines -/

/-- The code of a line is in lower case. -/
def Line.Lowered (l : Line) : Prop :=
  l.Has fun c => c.isUpper = false

theorem Line.lowered_of_mem_ofText {file text : String} {l : Line} (hl : l ∈ ofText file text) :
    l.Lowered := by
  obtain ⟨x, -, rfl⟩ := List.mem_map.1 hl
  unfold Lowered Has ofRaw
  intro c hc
  simp only [String.toList_ofList] at hc
  exact Text.lowered_lower _ c hc

theorem Line.lowered_of_mem_load {t : FileTree} {path : String} {lines : List Line}
    (h : load t path = .ok lines) {l : Line} (hl : l ∈ lines) : l.Lowered := by
  unfold load at h
  split at h
  · simp at h
  · simp at h
  · simp at h
  · obtain rfl := Except.ok.inj h
    exact lowered_of_mem_ofText hl

/-- All lines of the files loaded so far. -/
def Includes.Collection.Lowered (c : Collection) : Prop :=
  ∀ f ∈ c.files.toList, ∀ l ∈ f.lines, l.Lowered

theorem Includes.lowered_of_serve {t : FileTree} {root : Root} {seen : List Location}
    {c c' : Collection} {pending : List Request} (hc : c.Lowered)
    (h : serve t root seen c pending = .ok c') : c'.Lowered := by
  fun_induction serve t root seen c pending with
  | case1 =>
    obtain rfl := Except.ok.inj h
    exact hc
  | case2 _ _ _ _ ih => exact ih hc h
  | case3 _ _ _ _ _ _ _ ih => exact ih hc h
  | case4 _ _ _ _ _ _ _ _ _ ih => exact ih hc h
  | case5 _ _ _ _ _ _ _ _ _ _ _ ih => exact ih hc h
  | case6 _ _ _ _ _ _ _ _ _ _ _ _ ih => exact ih hc h
  | case7 => simp at h
  | case8 seen c directory l name rest path hpath location hlocation hroot hseen _ lines hlines ih =>
    refine ih (fun f hf k hk => ?_) h
    rw [Array.toList_push] at hf
    rcases List.mem_append.1 hf with hf | hf
    · exact hc f hf k hk
    · obtain rfl := List.mem_singleton.1 hf
      exact Line.lowered_of_mem_load hlines hk

theorem Includes.lowered_of_collect {t : FileTree} {path : String} {main : List Line}
    {found : Collection} (h : collect t path main = .ok found) : found.Lowered :=
  lowered_of_serve (by simp [Collection.Lowered]) h

/-! ## Macros -/

/-- The macros read so far, and the one being read, consist of code in lower case. -/
structure MacroReader.Lowered (r : MacroReader) : Prop where
  table : ∀ m ∈ r.table.values, m.Has fun c => c.isUpper = false
  current : ∀ o, r.current = some o → ∀ s ∈ o.top ++ o.bottom, Text.Lowered s.toList

namespace MacroReader

variable {r : MacroReader}

theorem Lowered.addMessage (hr : r.Lowered) (m : Message) : (r.addMessage m).Lowered :=
  ⟨hr.table, hr.current⟩

theorem Lowered.finish (hr : r.Lowered) {o : OpenMacro} (ho : r.current = some o)
    (closer : String) (l : Line) : (r.finish o closer l).Lowered := by
  have hclosed : MacroReader.Lowered { r with current := none } := ⟨hr.table, by simp⟩
  unfold MacroReader.finish
  dsimp only
  split
  · exact hclosed.addMessage _
  · split
    · exact hclosed.addMessage _
    · next mac hmac =>
      -- a macro has the lines of its parts
      have hlines : mac.top = o.top.reverse ∧ mac.bottom = o.bottom.reverse := by
        obtain ⟨-, -, -, rfl⟩ := Macro.ofParts_eq_ok hmac
        exact ⟨rfl, rfl⟩
      have hnew : Macro.Has (fun c => c.isUpper = false)
          { mac with position := some o.start.position } := by
        intro s hs
        refine hr.current o ho s ?_
        simpa [hlines.1, hlines.2] using hs
      unfold define
      split
      all_goals
        refine ⟨fun m hm => ?_, by simp [MacroReader.addMessage]⟩
        rcases Registry.mem_values_insert hm with rfl | hm
        · exact hnew
        · exact hr.table m hm

theorem Lowered.addLine (hr : r.Lowered) {o : OpenMacro} (ho : r.current = some o) {l : Line}
    (hl : l.Lowered) : (r.addLine o l).Lowered := by
  unfold MacroReader.addLine
  split
  · dsimp only
    split
    · refine ⟨hr.table, fun o' ho' => ?_⟩
      obtain rfl := Option.some.inj ho'
      exact hr.current o ho
    · refine ⟨hr.table, fun o' ho' => ?_⟩
      obtain rfl := Option.some.inj ho'
      exact hr.current o ho
  · split
    · exact hr
    · refine ⟨hr.table, fun o' ho' s hs => ?_⟩
      obtain rfl := Option.some.inj ho'
      -- the line goes to the top or, behind the dots, to the bottom
      have hmem : s = l.code ∨ s ∈ o.top ++ o.bottom := by
        unfold OpenMacro.addCode at hs
        split at hs
        · simp only [List.mem_append, List.mem_cons] at hs ⊢
          rcases hs with hs | hs | hs
          · exact .inr (.inl hs)
          · exact .inl hs
          · exact .inr (.inr hs)
        · simp only [List.cons_append, List.mem_cons] at hs
          exact hs
      rcases hmem with rfl | hmem
      · exact hl
      · exact hr.current o ho s hmem

theorem Lowered.step (hr : r.Lowered) {l : Line} (hl : l.Lowered) : (r.step l).Lowered := by
  unfold MacroReader.step
  split
  · refine ⟨hr.table, fun o ho => ?_⟩
    obtain rfl := Option.some.inj ho
    simp
  · exact hr.addMessage _
  · exact hr
  · exact hr.addMessage _
  · next o closer ho _ => exact hr.finish ho closer l
  · next o ho _ _ => exact hr.addLine ho hl

end MacroReader

/-- All macros of a table consist of code in lower case. -/
def MacroTable.Lowered (table : MacroTable) : Prop :=
  ∀ m ∈ table.values, m.Has fun c => c.isUpper = false

theorem MacroTable.Lowered.load {table : MacroTable} (htable : table.Lowered) {lines : List Line}
    (hlines : ∀ l ∈ lines, l.Lowered) : (table.load lines).1.Lowered := by
  have hr : (lines.foldl MacroReader.step ⟨table, none, .empty⟩).Lowered :=
    List.foldlRecOn lines MacroReader.step (motive := MacroReader.Lowered) ⟨htable, by simp⟩
      fun _ hr l hl => hr.step (hlines l hl)
  unfold MacroTable.load MacroReader.close
  dsimp only
  split
  · exact (hr.addMessage _).table
  · exact hr.table

theorem MacroTable.lowered_empty : MacroTable.Lowered .empty := by
  intro m hm
  simp at hm

namespace Compilation

theorem lowered_loadMacros {files : List (List Line)}
    (h : ∀ lines ∈ files, ∀ l ∈ lines, l.Lowered) : (loadMacros files).1.Lowered :=
  List.foldlRecOn (motive := fun acc : MacroTable × Report => acc.1.Lowered) files _
    MacroTable.lowered_empty fun _ hacc lines hlines => hacc.load (h lines hlines)

end Compilation

/-! ## Code lines -/

/-- Code lines are lines of the file. -/
theorem CodeLines.mem_of_mem_ofLines {lines : List Line} {l : Line} (hl : l ∈ ofLines lines) :
    l ∈ lines := by
  refine List.foldlRecOn lines step (motive := fun s => l ∈ s.lines → l ∈ lines) (by simp)
    (fun s hs k hk h => ?_) (Array.mem_toList_iff.1 hl)
  unfold step at h
  split at h
  · split at h
    · exact hs h
    · rcases Array.mem_push.1 h with h | rfl
      · exact hs h
      · exact hk
  · repeat' split at h
    all_goals exact hs h

/-- All expanded code of a compilation is in lower case. -/
theorem Compilation.lowered_expanded {t : FileTree} {path text path' : String}
    {found : Includes.Collection}
    (hfound : Includes.collect t path (Line.ofText path' text) = .ok found) :
    ∀ l ∈ (expanded (Line.ofText path' text) (found.files.toList.map Includes.Loaded.lines)).1,
      l.Lowered := by
  have hmain : ∀ l ∈ Line.ofText path' text, l.Lowered := fun l => Line.lowered_of_mem_ofText
  refine MacroTable.expand_forall (fun c hc => Text.isUpper_of_isDigit hc) ?_ ?_
  · refine lowered_loadMacros fun lines hlines => ?_
    rcases List.mem_append.1 hlines with hlines | hlines
    · obtain ⟨f, hf, rfl⟩ := List.mem_map.1 hlines
      exact Includes.lowered_of_collect hfound f hf
    · obtain rfl := List.mem_singleton.1 hlines
      exact hmain
  · exact fun l hl => hmain l (CodeLines.mem_of_mem_ofLines hl)

end MacroAsm
