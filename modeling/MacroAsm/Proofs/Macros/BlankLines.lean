import MacroAsm.Proofs.Macros.Nonempty
import MacroAsm.Proofs.Macros.Runs

set_option autoImplicit false

/-! # Blank lines between code

A line without code uses no macro and closes no block, so lines that are put in between code without
any of their own make no difference to what is expanded, nor to what is reported
(`MacroTable.Marked.expand_padded`). They stand between the expanded lines as they stood between the
code. -/

namespace MacroAsm

/-- A line with neither code nor a comment. -/
structure Line.Blank (l : Line) : Prop where
  code : l.code = ""
  comment : l.comment = none

variable {macros : List Macro} {l : Line}

theorem Macro.Marked.captures?_of_blank {m : Macro} (hm : m.Marked) (hl : l.Blank) :
    m.captures? l.code = none := by
  rw [captures?, Opener.match?, hl.code, String.toList_empty, Text.trim_nil,
    Opener.matchTrimmed?_nil hm.opener]
  rfl

theorem Line.Blank.not_uses (hl : l.Blank) (hmacros : ∀ m ∈ macros, m.Marked) :
    ¬ l.Uses macros := by
  rintro ⟨m, hm, hcaptures⟩
  rw [(hmacros m hm).captures?_of_blank hl] at hcaptures
  simp at hcaptures

namespace Expansion

theorem closes_of_blank {closer : String} (hcloser : closer ≠ "") (hl : l.Blank) :
    closes closer l.code = false := by
  rw [closes, hl.code]
  refine beq_eq_false_iff_ne.2 fun h => hcloser (String.toList_eq_nil_iff.1 h.symm)

/-- A marked macro is closed by a text that is not empty. -/
theorem closerText_ne_empty {m : Macro} (hm : m.Marked) (hwraps : m.wraps = true)
    {args : List String} (hargs : ∀ a ∈ args, a ≠ "") {uid : Nat} {closer : String}
    (h : closerText m args uid = .ok closer) : closer ≠ "" := by
  obtain ⟨c, hc, hne⟩ := hm.closer hwraps
  rw [closerText, hc] at h
  exact Placeholder.fill_ne_empty hne hargs h

/-- Two blocks with the same closer that are equal but for blank lines. -/
structure Block.Padded (b b' : Block) : Prop where
  inside : MacroAsm.Padded Line.Blank b.inside b'.inside
  closer : b'.closer = b.closer
  after : MacroAsm.Padded Line.Blank b.after b'.after

/-- Blank lines are not counted when the closer of a block is searched. -/
theorem findCloser_padded {m : Macro} (hm : m.Marked) {closer : String} (hcloser : closer ≠ "")
    {lines lines' : List Line} (h : Padded Line.Blank lines lines') {before before' : List Line}
    (hbefore : Padded Line.Blank before before') (depth : Nat) :
    Option.Rel Block.Padded (findCloser m closer depth before lines)
      (findCloser m closer depth before' lines') := by
  induction h generalizing before before' depth with
  | nil => exact .none
  | cons l hrest ih =>
    have hbefore' := hbefore.cons l
    simp only [findCloser]
    split
    · exact ih hbefore' _
    · split
      · cases depth with
        | zero => exact .some ⟨hbefore.reverse, rfl, hrest⟩
        | succ depth => exact ih hbefore' depth
      · exact ih hbefore' depth
  | pad hblank _ ih =>
    simp only [findCloser, hm.captures?_of_blank hblank, closes_of_blank hcloser hblank,
      Option.isSome_none, Bool.false_eq_true, if_false]
    exact ih (hbefore.pad hblank) depth

/-- One expansion, with blank lines behind the use or without. -/
theorem expandUse_padded {u : Use} (hm : u.mac.Marked) (hargs : ∀ a ∈ u.args, a ≠ "")
    {rest' : List Line} (h : Padded Line.Blank u.rest rest') (uid : Nat) :
    Padded Line.Blank (expandUse u uid).1 (expandUse { u with rest := rest' } uid).1 ∧
      (expandUse { u with rest := rest' } uid).2 = (expandUse u uid).2 := by
  unfold expandUse
  dsimp only
  cases fillLines u.mac.top u.args uid u.line with
  | error e => exact ⟨h, rfl⟩
  | ok top =>
    cases hwraps : u.mac.wraps with
    | false => exact ⟨(Padded.refl top).append h, rfl⟩
    | true =>
      cases hcloser : closerText u.mac u.args uid with
      | error e => exact ⟨h, rfl⟩
      | ok closer =>
        have hne := closerText_ne_empty hm hwraps hargs hcloser
        have hblock := findCloser_padded hm hne h .nil 0
        dsimp only
        generalize findCloser u.mac closer 0 [] u.rest = found at hblock ⊢
        generalize findCloser u.mac closer 0 [] rest' = found' at hblock ⊢
        cases hblock with
        | none => exact ⟨h, rfl⟩
        | @some block block' hpadded =>
          obtain ⟨inside, last, after⟩ := block
          obtain ⟨inside', last', after'⟩ := block'
          obtain ⟨hinside, rfl, hafter⟩ := hpadded
          exact ⟨(((Padded.refl top).append hinside).append (.refl _)).append hafter, rfl⟩

/-- A run over lines with blank ones put in between reports the same, and leaves the blank lines in
    between. -/
theorem expandFrom_padded (hmacros : ∀ m ∈ macros, m.Marked) {lines lines' : List Line}
    (h : Padded Line.Blank lines lines') (left uid : Nat) :
    Padded Line.Blank (expandFrom macros left uid lines).1 (expandFrom macros left uid lines').1 ∧
      (expandFrom macros left uid lines').2 = (expandFrom macros left uid lines).2 := by
  -- an expansion uses up one that is left; a line without one only shortens the lines
  induction left using Nat.strongRecOn generalizing lines lines' uid with
  | ind left ihl =>
    induction h with
    | nil => exact ⟨.refl _, rfl⟩
    | @cons l as bs hrest ih =>
      cases huse : Macro.use? macros l.code with
      | none =>
        have hnot := Macro.use?_eq_none_iff.1 huse
        rw [expandFrom_cons_of_not_uses hnot, expandFrom_cons_of_not_uses hnot]
        exact ⟨ih.1.cons l, ih.2⟩
      | some used =>
        obtain ⟨m, args⟩ := used
        cases left with
        | zero =>
          rw [expandFrom_zero_of_use (u := ⟨l, m, args, as⟩) huse,
            expandFrom_zero_of_use (u := ⟨l, m, args, bs⟩) huse]
          exact ⟨hrest.cons l, rfl⟩
        | succ left =>
          have hone := expandUse_padded (u := ⟨l, m, args, as⟩) (hmacros m (Macro.mem_of_use? huse))
            (Macro.ne_empty_of_use? huse) hrest uid
          have hmore := ihl left (Nat.lt_succ_self left) hone.1 (uid + 1)
          rw [expandFrom_cons_of_use huse, expandFrom_cons_of_use huse]
          exact ⟨hmore.1, congrArg₂ _ hone.2 hmore.2⟩
    | pad hblank _ ih =>
      rw [expandFrom_cons_of_not_uses (hblank.not_uses hmacros)]
      exact ⟨ih.1.pad hblank, ih.2⟩

end Expansion

/-- Blank lines in between make no difference to an expansion but that they stand in between. -/
theorem MacroTable.Marked.expand_padded {table : MacroTable} (h : table.Marked)
    {lines lines' : List Line} (hlines : Padded Line.Blank lines lines') :
    Padded Line.Blank (table.expand lines).1 (table.expand lines').1 ∧
      (table.expand lines').2 = (table.expand lines).2 := by
  have hrun := Expansion.expandFrom_padded h hlines Expansion.limit 1
  exact ⟨hrun.1, congrArg Report.ofList hrun.2⟩

end MacroAsm
