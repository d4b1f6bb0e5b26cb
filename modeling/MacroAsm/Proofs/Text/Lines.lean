import MacroAsm.Text.Lines

set_option autoImplicit false

/-! # Lines of a text

Lines that are written one after the other, each with a line feed behind it, are read again as the
same lines (`lines_flatMap`), provided that none holds a line feed of its own or ends with the
carriage return that would be taken for a part of the line end. -/

namespace MacroAsm.Text

/-- A line that is read as it is written: it has no line feed and no carriage return at its end. -/
structure OneLine (l : List Char) : Prop where
  feed : '\n' ∉ l
  last : ∀ c ∈ l.getLast?, c ≠ '\r'

/-- A line without the carriage return that belongs to the line end behind it. -/
def dropReturn (l : List Char) : List Char :=
  if l.getLast? = some '\r' then l.dropLast else l

theorem OneLine.dropReturn_eq {l : List Char} (hl : OneLine l) : dropReturn l = l :=
  if_neg fun h => hl.last _ h rfl

variable {l : List Char}

/-- Away from a line feed, characters are put in front of the first line. -/
theorem foldr_step_of_notMem (hl : '\n' ∉ l) (k : List Char) (ls : List (List Char)) :
    l.foldr LineCut.step ⟨k :: ls, false⟩ = ⟨(l ++ k) :: ls, false⟩ := by
  induction l with
  | nil => rfl
  | cons c l ih =>
    have hc : c ≠ '\n' := fun h => hl (h ▸ List.mem_cons_self)
    rw [List.foldr_cons, ih fun h => hl (List.mem_cons_of_mem c h)]
    simp [LineCut.step, hc]

/-- The characters before a line feed become a line of their own. -/
theorem foldr_step_of_feed (hl : '\n' ∉ l) (ls : List (List Char)) :
    (l.foldr LineCut.step ⟨[] :: ls, true⟩).lines = dropReturn l :: ls := by
  rcases List.eq_nil_or_concat l with rfl | ⟨l, c, rfl⟩
  · rfl
  · rw [List.concat_eq_append] at hl ⊢
    have hc : c ≠ '\n' := fun h => hl (h ▸ List.mem_concat_self)
    have hfront : '\n' ∉ l := fun h => hl (List.mem_append_left _ h)
    rw [List.foldr_append, List.foldr_cons, List.foldr_nil, dropReturn]
    -- only the last character can be the carriage return of the line end
    by_cases hreturn : c = '\r'
    · have hstep : LineCut.step c ⟨[] :: ls, true⟩ = ⟨[] :: ls, false⟩ := by
        simp [LineCut.step, hreturn]
      rw [hstep, foldr_step_of_notMem hfront]
      simp [hreturn]
    · have hstep : LineCut.step c ⟨[] :: ls, true⟩ = ⟨[c] :: ls, false⟩ := by
        simp [LineCut.step, hc, hreturn]
      rw [hstep, foldr_step_of_notMem hfront]
      simp [hreturn]

/-- A text is read line by line. -/
theorem lines_append_feed (hl : '\n' ∉ l) (cs : List Char) :
    lines (l ++ '\n' :: cs) = dropReturn l :: lines cs := by
  have hstep : LineCut.step '\n' (cs.foldr LineCut.step ⟨[], false⟩) = ⟨[] :: lines cs, true⟩ := by
    simp [LineCut.step, lines]
  rw [lines, List.foldr_append, List.foldr_cons, hstep]
  exact foldr_step_of_feed hl _

/-- Without a line feed there is one line, if there is any text. -/
theorem lines_of_notMem (hl : '\n' ∉ l) (hne : l ≠ []) : lines l = [l] := by
  obtain ⟨front, c, rfl⟩ := List.eq_nil_or_concat l |>.resolve_left hne
  rw [List.concat_eq_append] at hl ⊢
  have hc : c ≠ '\n' := fun h => hl (h ▸ List.mem_concat_self)
  have hstep : LineCut.step c ⟨[], false⟩ = ⟨[[c]], false⟩ := by simp [LineCut.step, hc]
  rw [lines, List.foldr_append, List.foldr_cons, List.foldr_nil, hstep,
    foldr_step_of_notMem fun h => hl (List.mem_append_left _ h)]

/-- Lines are read as they are written. -/
theorem lines_flatMap {ls : List (List Char)} (h : ∀ l ∈ ls, OneLine l) :
    lines (ls.flatMap fun l => l ++ ['\n']) = ls := by
  induction ls with
  | nil => rfl
  | cons l ls ih =>
    have hl := h l List.mem_cons_self
    rw [List.flatMap_cons, List.append_assoc, List.singleton_append, lines_append_feed hl.feed,
      hl.dropReturn_eq, ih fun m hm => h m (List.mem_cons_of_mem l hm)]

/-- No line of a text holds a line feed. -/
theorem feed_notMem_of_mem_lines {cs l : List Char} (h : l ∈ lines cs) : '\n' ∉ l := by
  unfold lines at h
  induction cs generalizing l with
  | nil => simp at h
  | cons c cs ih =>
    rw [List.foldr_cons] at h
    generalize cs.foldr LineCut.step ⟨[], false⟩ = cut at h ih
    unfold LineCut.step at h
    split at h
    · rcases List.mem_cons.1 h with rfl | h
      · simp
      · exact ih h
    · next hc =>
      split at h
      · exact ih h
      · split at h
        · obtain rfl := List.mem_singleton.1 h
          simpa using fun h => hc h.symm
        · next m ms hcut =>
          rw [hcut] at ih
          rcases List.mem_cons.1 h with rfl | h
          · have hm := ih List.mem_cons_self
            simpa [hm] using fun h => hc h.symm
          · exact ih (List.mem_cons_of_mem m h)

end MacroAsm.Text
