import MacroAsm.Memory.Layout

set_option autoImplicit false

/-! # Searching a layout

What one line does to the search of a layout, context by context. A search finds the layout of one of
its blocks (`Block.layout`) and never another one afterwards, so a file has either such a layout or
the default one (`Layout.find_cases`). -/

namespace MacroAsm

namespace Layout

/-- The layout that a block asks for. -/
def Block.layout (b : Block) : Layout :=
  ⟨b.kind, b.balance, (readDeclarations b.kind b.lines.reverse).1, some b.start.position⟩

namespace Search

variable {s : Search} {l : Line} {b : Block}

/-! ## Taking a block -/

theorem take_of_found {first : Layout} (h : s.found = some first) :
    s.take b = { s with
      current := none
      report := s.report.push (ignoredMessage b.start first) } := by
  simp only [take, h, addMessage]

theorem take_of_not_found (h : s.found = none) :
    s.take b = { s with
      found := some b.layout
      current := none
      report := s.report ++ (readDeclarations b.kind b.lines.reverse).2 } := by
  simp only [take, h, Block.layout]

theorem found_take : (s.take b).found = s.found.or (some b.layout) := by
  cases h : s.found with
  | none => rw [take_of_not_found h]; rfl
  | some first => rw [take_of_found h, h]; rfl

/-- Where a layout begins there is at most a warning. -/
theorem exists_begin_eq (s : Search) (l : Line) (kind : LayoutKind) (words : String) :
    ∃ balance report, report.hasError = s.report.hasError ∧
      s.begin l kind words =
        if kind.hasBlock then { s with report, current := some ⟨kind, balance, l, []⟩ }
        else Search.take { s with report } ⟨kind, balance, l, []⟩ := by
  have hpush : (s.report.push (noBalanceMessage l)).hasError = s.report.hasError := by
    simp [Report.hasError_push, noBalanceMessage, Message.about]
  cases kind with
  | explicit => exact ⟨.incremental, s.report, rfl, rfl⟩
  | static | staticAuto =>
    simp only [begin]
    cases Balance.parse? words with
    | none => exact ⟨.incremental, _, hpush, rfl⟩
    | some balance => exact ⟨balance, s.report, rfl, rfl⟩

/-! ## One line -/

theorem step_of_current (h : s.current = some b) :
    s.step l = if l.isDirective endName then s.take b
      else { s with current := some { b with lines := l :: b.lines } } := by
  simp only [step, h]

theorem step_of_code (h : s.current = none) (hl : l.directive? = none) : s.step l = s := by
  simp only [step, h, hl]

theorem step_of_directive {d : Directive} (h : s.current = none) (hl : l.directive? = some d) :
    s.step l = if d.name = "macro" then { s with inMacro := true }
      else if d.name = "endmacro" then { s with inMacro := false }
      else if d.name = directiveName && !s.inMacro then
        match LayoutKind.parse d.rest with
        | .error e => s.addMessage (noKindMessage l e)
        | .ok kind => s.begin l kind d.rest
      else s := by
  unfold step
  split
  · next b hb => exact absurd (h.symm.trans hb) (by simp)
  · split
    · next hnone => exact absurd (hl.symm.trans hnone) (by simp)
    · next d' hd =>
      obtain rfl := Option.some.inj (hl.symm.trans hd)
      rfl

/-- A line adds the layout of a block at most, and only to a search that found none. -/
theorem found_step (s : Search) (l : Line) :
    (s.step l).found = s.found ∨ ∃ b : Block, (s.step l).found = s.found.or (some b.layout) := by
  cases hcurrent : s.current with
  | some b =>
    rw [step_of_current hcurrent]
    split
    · exact .inr ⟨b, found_take⟩
    · exact .inl rfl
  | none =>
    cases hl : l.directive? with
    | none => exact .inl (congrArg Search.found (step_of_code hcurrent hl))
    | some d =>
      rw [step_of_directive hcurrent hl]
      split
      · exact .inl rfl
      · split
        · exact .inl rfl
        · split
          · split
            · exact .inl rfl
            · next kind _ =>
              obtain ⟨balance, report, -, heq⟩ := s.exists_begin_eq l kind d.rest
              rw [heq]
              split
              · exact .inl rfl
              · exact .inr ⟨_, found_take⟩
          · exact .inl rfl

/-- What a search finds is the layout of a block. -/
def FoundBlock (s : Search) : Prop :=
  ∀ layout, s.found = some layout → ∃ b : Block, layout = b.layout

theorem FoundBlock.of_or {s' : Search} (hs : s.FoundBlock)
    (h : s'.found = s.found.or (some b.layout)) : s'.FoundBlock := by
  intro layout hlayout
  rw [h] at hlayout
  cases hfound : s.found with
  | none => exact ⟨b, by simpa [hfound, eq_comm] using hlayout⟩
  | some first =>
    rw [hfound] at hlayout
    exact hs layout (hfound.trans hlayout)

theorem FoundBlock.step (hs : s.FoundBlock) (l : Line) : (s.step l).FoundBlock := by
  rcases s.found_step l with h | ⟨b, h⟩
  · intro layout hlayout
    exact hs layout (h.symm.trans hlayout)
  · exact hs.of_or h

theorem FoundBlock.foldl (hs : s.FoundBlock) (lines : List Line) :
    (lines.foldl Search.step s).FoundBlock := by
  induction lines generalizing s with
  | nil => exact hs
  | cons l lines ih => exact ih (hs.step l)

theorem FoundBlock.close (hs : s.FoundBlock) : s.close.FoundBlock := by
  unfold Search.close
  split
  · exact hs.of_or found_take
  · exact hs

end Search

/-- A file has the layout of one of its blocks, or the default one. -/
theorem find_cases (lines : List Line) :
    (find lines).1 = default ∨ ∃ b : Block, (find lines).1 = b.layout := by
  have hempty : Search.FoundBlock ⟨none, false, none, .empty⟩ := by simp [Search.FoundBlock]
  have hclosed := (hempty.foldl lines).close
  unfold find
  dsimp only
  split
  · next layout hfound => exact .inr (hclosed layout hfound)
  · exact .inl rfl

end Layout

end MacroAsm
