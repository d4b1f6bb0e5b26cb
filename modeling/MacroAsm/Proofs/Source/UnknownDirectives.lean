import MacroAsm.Compilation
import MacroAsm.Proofs.Macros.BlankLines
import MacroAsm.Proofs.Macros.Definitions
import MacroAsm.Proofs.Memory.Blocks

set_option autoImplicit false

/-! # Unknown directives

A line whose directive means nothing is passed over wherever directives are looked for, as an empty
line in its place would be. Macros and declarations are read without looking for unknown directives,
so there the line is read as what stands around it: among the declarations of the layout that counts
it is an error (`Layout.hasError_find_of_directive`). -/

namespace MacroAsm

/-! ## Lines -/

namespace Line

/-- An empty line in the place of a line. -/
def emptied (l : Line) : Line :=
  ofRaw l.file l.index ""

theorem blank_emptied (l : Line) : l.emptied.Blank :=
  ⟨rfl, rfl⟩

/-- A line with a directive that means nothing. -/
def Unknown (l : Line) : Prop :=
  ∃ d, l.directive? = some d ∧ d.name ∉ Compilation.directives

variable {l : Line}

theorem Blank.directive? (hl : l.Blank) : l.directive? = none := by
  rw [Line.directive?, hl.code]
  rfl

theorem Unknown.exists_directive (hl : l.Unknown) :
    ∃ d, l.directive? = some d ∧ ∀ name ∈ Compilation.directives, d.name ≠ name := by
  obtain ⟨d, hd, hunknown⟩ := hl
  refine ⟨d, hd, fun name hname heq => ?_⟩
  rw [heq] at hunknown
  exact hunknown hname

theorem Unknown.isDirective (hl : l.Unknown) {name : String}
    (hname : name ∈ Compilation.directives) : l.isDirective name = false := by
  obtain ⟨d, hd, hne⟩ := hl.exists_directive
  rw [isDirective_of_some hd, beq_eq_false_iff_ne]
  exact hne name hname

end Line

/-- A directive that means nothing is reported where it stands. -/
theorem Compilation.exists_directiveMessage {l : Line} (hl : l.Unknown) :
    ∃ text, directiveMessage? l = some (.about .warning text l.position) := by
  obtain ⟨d, hd, hunknown⟩ := hl
  unfold directiveMessage?
  rw [hd]
  dsimp only
  split
  · exact ⟨_, rfl⟩
  · rw [if_neg (by simpa using hunknown)]
    exact ⟨_, rfl⟩

variable {l : Line} {before after : List Line}

/-! ## Macros -/

/-- Outside of macros an unknown directive is passed over. -/
theorem MacroTable.load_emptied (table : MacroTable) (hl : l.Unknown)
    (houtside : before.foldl Line.opensMacro false = false) :
    table.load (before ++ l.emptied :: after) = table.load (before ++ l :: after) := by
  have hcurrent : (before.foldl MacroReader.step ⟨table, none, .empty⟩).current = none := by
    rw [← Option.not_isSome_iff_eq_none, MacroReader.isSome_current_foldl_step]
    exact Bool.eq_false_iff.1 houtside
  have hnone := l.blank_emptied.directive?
  unfold load
  rw [List.foldl_append, List.foldl_append, List.foldl_cons, List.foldl_cons,
    MacroReader.step_of_other hcurrent (hl.isDirective (by decide)) (hl.isDirective (by decide)),
    MacroReader.step_of_other hcurrent (Line.isDirective_of_none hnone _)
      (Line.isDirective_of_none hnone _)]

/-! ## Included files -/

/-- An unknown directive includes nothing. -/
theorem Includes.requests_emptied (path : String) (before after : List Line) (hl : l.Unknown) :
    requests path (before ++ l.emptied :: after) = requests path (before ++ l :: after) := by
  obtain ⟨d, hd, hne⟩ := hl.exists_directive
  have hl (directory : String) : requestsOf directory l = [] := by
    simp only [requestsOf, hd, if_neg (hne directiveName (by decide))]
  have hempty (directory : String) : requestsOf directory l.emptied = [] := by
    simp only [requestsOf, l.blank_emptied.directive?]
  simp only [requests, List.flatMap_append, List.flatMap_cons, hl, hempty]

/-! ## Code -/

namespace CodeLines

/-- Code with blank lines put in between, read up to the same point. -/
structure Padded (s s' : CodeLines) : Prop where
  inMacro : s'.inMacro = s.inMacro
  inLayout : s'.inLayout = s.inLayout
  lines : MacroAsm.Padded Line.Blank s.lines.toList s'.lines.toList

variable {s s' : CodeLines}

theorem Padded.step (h : s.Padded s') (l : Line) : (s.step l).Padded (s'.step l) := by
  obtain ⟨inMacro, inLayout, lines⟩ := s
  obtain ⟨_, _, lines'⟩ := s'
  obtain ⟨rfl, rfl, hlines⟩ := h
  unfold CodeLines.step
  dsimp only
  split
  · split
    · exact ⟨rfl, rfl, hlines⟩
    · refine ⟨rfl, rfl, ?_⟩
      rw [Array.toList_push, Array.toList_push]
      exact hlines.append (.refl [l])
  · split
    · exact ⟨rfl, rfl, hlines⟩
    · split
      · exact ⟨rfl, rfl, hlines⟩
      · split
        · exact ⟨rfl, rfl, hlines⟩
        · split
          · exact ⟨rfl, rfl, hlines⟩
          · exact ⟨rfl, rfl, hlines⟩

theorem step_of_unknown (s : CodeLines) (hl : l.Unknown) : s.step l = s := by
  obtain ⟨d, hd, hne⟩ := hl.exists_directive
  simp [CodeLines.step, hd, hne "macro" (by decide), hne "endmacro" (by decide),
    hne Layout.directiveName (by decide), hne Layout.endName (by decide)]

/-- An unknown directive is no code, and an empty line in its place is at most a blank line of
    code. -/
theorem ofLines_padded (hl : l.Unknown) :
    MacroAsm.Padded Line.Blank (ofLines (before ++ l :: after))
      (ofLines (before ++ l.emptied :: after)) := by
  generalize hs : before.foldl CodeLines.step ⟨false, false, #[]⟩ = s
  have hempty : s.Padded (s.step l.emptied) := by
    unfold CodeLines.step
    rw [l.blank_emptied.directive?]
    dsimp only
    split
    · exact ⟨rfl, rfl, .refl _⟩
    · refine ⟨rfl, rfl, ?_⟩
      rw [Array.toList_push]
      exact (MacroAsm.Padded.refl _).concat l.blank_emptied
  unfold ofLines
  rw [List.foldl_append, List.foldl_append, List.foldl_cons, List.foldl_cons, hs,
    s.step_of_unknown hl]
  exact (List.foldl_rel (r := Padded) hempty fun k _ _ _ h => h.step k).lines

end CodeLines

/-! ## Layouts -/

namespace Layout

namespace Search

variable {s s' : Search}

/-- Two searches that differ at most in declarations that do not count. -/
inductive Alike : Search → Search → Prop
  | same (s : Search) : Alike s s
  | uncounted (first : Layout) (inMacro : Bool) (b : Block) (lines : List Line) (report : Report) :
      Alike ⟨some first, inMacro, some b, report⟩
        ⟨some first, inMacro, some { b with lines }, report⟩

theorem Alike.step (h : s.Alike s') (l : Line) : (s.step l).Alike (s'.step l) := by
  cases h with
  | same => exact .same _
  | uncounted first inMacro b lines report =>
    rw [step_of_current rfl, step_of_current rfl]
    split
    · rw [take_of_found rfl, take_of_found rfl]
      exact .same _
    · exact .uncounted first inMacro { b with lines := l :: b.lines } (l :: lines) report

theorem Alike.close (h : s.Alike s') : s'.close = s.close := by
  cases h with
  | same => rfl
  | uncounted first inMacro b lines report =>
    simp only [Search.close]
    rw [take_of_found rfl, take_of_found rfl]
    rfl

/-- A search in whose report there is an error, or that reads the declarations that count and has read
    a directive among them. -/
def Flawed (s : Search) : Prop :=
  s.report.hasError = true ∨
    ∃ b, s.current = some b ∧ s.found = none ∧ ∃ l ∈ b.lines, l.directive?.isSome = true

theorem Flawed.hasError_take {b : Block} (hfound : s.found = none) {l : Line} (hl : l ∈ b.lines)
    (hd : l.directive?.isSome = true) : (s.take b).report.hasError = true := by
  by_contra h
  have hread := (faultless_of_take (by simpa using h)).2 hfound
  have hnone := directive?_of_readDeclarations hread l (List.mem_reverse.2 hl)
  simp [hnone] at hd

theorem Flawed.step (h : s.Flawed) (l : Line) : (s.step l).Flawed := by
  rcases h with h | ⟨b, hcurrent, hfound, k, hk, hd⟩
  · refine .inl ?_
    by_contra hnot
    have hs := faultless_of_step (by simpa using hnot)
    exact absurd (h.symm.trans hs) (by decide)
  · rw [step_of_current hcurrent]
    split
    · exact .inl (hasError_take hfound hk hd)
    · exact .inr ⟨_, rfl, hfound, k, List.mem_cons_of_mem l hk, hd⟩

theorem Flawed.close (h : s.Flawed) : s.close.report.hasError = true := by
  by_contra hnot
  obtain ⟨hcurrent, hreport⟩ := of_close (by simpa using hnot)
  rcases h with h | ⟨b, hb, -⟩
  · exact absurd (h.symm.trans hreport) (by decide)
  · simp [hcurrent] at hb

end Search

/-- Whether the text behind some lines is among the declarations of the layout that counts. -/
def InDeclarations (before : List Line) : Prop :=
  (before.foldl Search.step ⟨none, false, none, .empty⟩).current.isSome = true ∧
    (before.foldl Search.step ⟨none, false, none, .empty⟩).found = none

instance (before : List Line) : Decidable (InDeclarations before) :=
  inferInstanceAs (Decidable (_ ∧ _))

/-- Unless it is among the declarations that count, an unknown directive makes no difference to the
    layout. -/
theorem find_emptied (hl : l.Unknown) (hoff : ¬ InDeclarations before) :
    find (before ++ l.emptied :: after) = find (before ++ l :: after) := by
  unfold InDeclarations at hoff
  generalize hs : before.foldl Search.step ⟨none, false, none, .empty⟩ = s at hoff
  have halike : (s.step l).Alike (s.step l.emptied) := by
    cases hcurrent : s.current with
    | none =>
      obtain ⟨d, hd, hne⟩ := hl.exists_directive
      have hsame : s.step l = s := by
        simp [Search.step_of_directive hcurrent hd, hne "macro" (by decide),
          hne "endmacro" (by decide), hne directiveName (by decide)]
      rw [hsame, Search.step_of_code hcurrent l.blank_emptied.directive?]
      exact .same s
    | some b =>
      obtain ⟨found, inMacro, current, report⟩ := s
      obtain rfl : current = some b := hcurrent
      cases found with
      | none => exact absurd ⟨rfl, rfl⟩ hoff
      | some first =>
        rw [Search.step_of_current rfl, Search.step_of_current rfl, hl.isDirective (by decide),
          Line.isDirective_of_none l.blank_emptied.directive?]
        exact .uncounted first inMacro _ _ report
  have hend := List.foldl_rel (r := Search.Alike) (l := after) halike fun k _ _ _ h => h.step k
  unfold find
  rw [List.foldl_append, List.foldl_append, List.foldl_cons, List.foldl_cons, hs, hend.close]

/-- Among the declarations that count, a directive that does not end them is an error. -/
theorem hasError_find_of_directive {d : Directive} (hl : l.directive? = some d)
    (hd : d.name ≠ endName) (hin : InDeclarations before) (after : List Line) :
    (find (before ++ l :: after)).2.hasError = true := by
  unfold InDeclarations at hin
  generalize hs : before.foldl Search.step ⟨none, false, none, .empty⟩ = s at hin
  obtain ⟨hsome, hfound⟩ := hin
  obtain ⟨b, hcurrent⟩ := Option.isSome_iff_exists.1 hsome
  have hflawed : (s.step l).Flawed := by
    rw [Search.step_of_current hcurrent, Line.isDirective_of_some hl, beq_false_of_ne hd,
      if_neg Bool.false_ne_true]
    exact .inr ⟨_, rfl, hfound, l, List.mem_cons_self, by rw [hl]; rfl⟩
  have hclose := (List.foldlRecOn after Search.step hflawed fun _ h k _ => h.step k).close
  unfold find
  rw [List.foldl_append, List.foldl_cons, hs]
  dsimp only
  split
  · exact hclose
  · rw [Report.hasError_push, hclose]
    rfl

end Layout

end MacroAsm
