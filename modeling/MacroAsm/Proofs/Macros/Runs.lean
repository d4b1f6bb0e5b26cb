import MacroAsm.Proofs.Macros.Nesting

set_option autoImplicit false

/-! # Runs of expansions

`Expansion.expandFrom` goes on from the line that it has expanded and forgets the lines in front of
it. Seen from all the lines, one expansion (`Expansion.Step`) takes the first line that uses a macro,
wherever it stands, and a run (`Expansion.Steps`) is one expansion after another. The two views agree
because no line in front of the place where the search goes on uses a macro, whatever an expansion
has put or dropped behind it (`Expansion.exists_steps`). A run therefore ends in one of two ways: all
expansions that were allowed have been made and there is still a use, or no line uses a macro. -/

namespace MacroAsm

variable {macros : List Macro}

namespace Expansion

/-! ## The first use -/

/-- The first use in some lines, and the lines in front of it. -/
structure FirstUse (macros : List Macro) (lines kept : List Line) (u : Use) : Prop where
  lines_eq : lines = kept ++ u.line :: u.rest
  not_uses : ∀ l ∈ kept, ¬ l.Uses macros
  use? : Macro.use? macros u.line.code = some (u.mac, u.args)

/-- Either no line uses a macro, or there is a first one. -/
theorem not_uses_or_firstUse (macros : List Macro) (lines : List Line) :
    (∀ l ∈ lines, ¬ l.Uses macros) ∨ ∃ kept u, FirstUse macros lines kept u := by
  induction lines with
  | nil =>
    left
    intro l hl
    simp at hl
  | cons l rest ih =>
    cases hu : Macro.use? macros l.code with
    | some use =>
      obtain ⟨m, args⟩ := use
      exact .inr ⟨[], ⟨l, m, args, rest⟩, rfl, by simp, hu⟩
    | none =>
      have hl : ¬ l.Uses macros := Macro.use?_eq_none_iff.1 hu
      rcases ih with hrest | ⟨kept, u, heq, hkept, huse⟩
      · left
        intro k hk
        rcases List.mem_cons.1 hk with rfl | hk
        · exact hl
        · exact hrest k hk
      · right
        refine ⟨l :: kept, u, by rw [heq, List.cons_append], fun k hk => ?_, huse⟩
        rcases List.mem_cons.1 hk with rfl | hk
        · exact hl
        · exact hkept k hk

/-! ## Lines in front of the first use -/

/-- Lines in front that use no macro are kept. -/
theorem expandFrom_append_of_not_uses {kept : List Line} (hkept : ∀ l ∈ kept, ¬ l.Uses macros)
    (left uid : Nat) (lines : List Line) :
    expandFrom macros left uid (kept ++ lines) =
      (kept ++ (expandFrom macros left uid lines).1, (expandFrom macros left uid lines).2) := by
  induction kept with
  | nil => rfl
  | cons l kept ih =>
    have hl := hkept l List.mem_cons_self
    have hrest := ih fun k hk => hkept k (List.mem_cons_of_mem l hk)
    rw [List.cons_append, expandFrom_cons_of_not_uses hl, hrest]
    rfl

/-- Without a use all lines are kept and nothing is reported. -/
theorem expandFrom_of_not_uses {lines : List Line} (hlines : ∀ l ∈ lines, ¬ l.Uses macros)
    (left uid : Nat) : expandFrom macros left uid lines = (lines, []) := by
  have h := expandFrom_append_of_not_uses hlines left uid []
  rw [List.append_nil] at h
  rw [h]
  simp [expandFrom, seek]

/-- When no expansion is left, a use ends the run. -/
theorem expandFrom_zero_of_use {u : Use} (hu : Macro.use? macros u.line.code = some (u.mac, u.args))
    (uid : Nat) :
    expandFrom macros 0 uid (u.line :: u.rest) = (u.line :: u.rest, [limitMessage u.mac u.line]) := by
  rw [expandFrom]
  simp [seek, hu]

/-! ## Messages -/

/-- Whether a message says that there are too many expansions. -/
def IsLimit (x : Message) : Prop :=
  ∃ m l, x = limitMessage m l

/-- The beginning of such a message; no other message about an expansion begins like this. -/
theorem IsLimit.take_text {x : Message} (h : IsLimit x) :
    x.text.toList.take 7 = ['M', 'a', 'c', 'r', 'o', ' ', 'e'] := by
  obtain ⟨m, l, rfl⟩ := h
  simp only [limitMessage, Message.about, String.toList_append]
  rfl

theorem take_text_placeholderMessage (e : PlaceholderError) (l : Line) :
    (placeholderMessage e l).text.toList.take 7 = ['M', 'a', 'c', 'r', 'o', ' ', 'a'] := by
  simp only [placeholderMessage, Message.about]
  unfold PlaceholderError.message
  dsimp only
  simp only [String.toList_append]
  rfl

theorem take_text_unclosedMessage (m : Macro) (closer : String) (l : Line) :
    (unclosedMessage m closer l).text.toList.take 7 = ['C', 'o', 'm', 'p', 'l', 'e', 'x'] := by
  simp only [unclosedMessage, Message.about, String.toList_append]
  rfl

theorem not_isLimit_placeholderMessage (e : PlaceholderError) (l : Line) :
    ¬ IsLimit (placeholderMessage e l) := by
  intro h
  have hlimit := h.take_text
  simp [take_text_placeholderMessage] at hlimit

theorem not_isLimit_unclosedMessage (m : Macro) (closer : String) (l : Line) :
    ¬ IsLimit (unclosedMessage m closer l) := by
  intro h
  have hlimit := h.take_text
  simp [take_text_unclosedMessage] at hlimit

/-- One expansion never reports that there are too many. -/
theorem not_isLimit_of_mem_expandUse {u : Use} {uid : Nat} {x : Message}
    (hx : x ∈ (expandUse u uid).2) : ¬ IsLimit x := by
  have hexpands := expands_expandUse u uid
  generalize expandUse u uid = result at hexpands hx
  cases hexpands with
  | unfilled e =>
    obtain rfl := List.mem_singleton.1 hx
    exact not_isLimit_placeholderMessage e _
  | unclosed closer =>
    obtain rfl := List.mem_singleton.1 hx
    exact not_isLimit_unclosedMessage _ closer _
  | top => exact absurd hx List.not_mem_nil
  | block =>
    obtain ⟨e, rfl⟩ := exists_of_mem_bottomLines hx
    exact not_isLimit_placeholderMessage e _

/-! ## Steps and runs -/

/-- One expansion, with its number: the first use is expanded with the lines behind it, and the lines
    in front of it stay. -/
inductive Step (macros : List Macro) (uid : Nat) : List Line → List Line → List Message → Prop
  | expand {lines kept : List Line} {u : Use} (h : FirstUse macros lines kept u) :
      Step macros uid lines (kept ++ (expandUse u uid).1) (expandUse u uid).2

/-- So many expansions, one after another, the first of which has some number. -/
inductive Steps (macros : List Macro) : Nat → Nat → List Line → List Line → List Message → Prop
  | refl (uid : Nat) (lines : List Line) : Steps macros 0 uid lines lines []
  | head {n uid : Nat} {lines lines' lines'' : List Line} {messages messages' : List Message}
      (h : Step macros uid lines lines' messages)
      (hs : Steps macros n (uid + 1) lines' lines'' messages') :
      Steps macros (n + 1) uid lines lines'' (messages ++ messages')

theorem Steps.snoc {n uid : Nat} {lines lines' lines'' : List Line} {messages messages' : List Message}
    (hs : Steps macros n uid lines lines' messages)
    (h : Step macros (uid + n) lines' lines'' messages') :
    Steps macros (n + 1) uid lines lines'' (messages ++ messages') := by
  induction hs with
  | refl uid lines =>
    have hone := Steps.head h (.refl (uid + 0 + 1) lines'')
    rwa [List.append_nil] at hone
  | @head n uid _ _ _ _ _ hstep _ ih =>
    rw [List.append_assoc]
    refine .head hstep (ih ?_)
    rwa [Nat.add_right_comm, Nat.add_assoc]

/-- A run goes on behind one expansion as it would from the lines that this has left. -/
theorem Step.expandFrom_eq {uid : Nat} {lines lines' : List Line} {messages : List Message}
    (h : Step macros uid lines lines' messages) (left : Nat) :
    expandFrom macros (left + 1) uid lines =
      ((expandFrom macros left (uid + 1) lines').1,
        messages ++ (expandFrom macros left (uid + 1) lines').2) := by
  cases h with
  | expand h =>
    rw [h.lines_eq, expandFrom_append_of_not_uses h.not_uses, expandFrom_append_of_not_uses h.not_uses,
      expandFrom_cons_of_use h.use?]

theorem Steps.expandFrom_eq {n uid : Nat} {lines lines' : List Line} {messages : List Message}
    (hs : Steps macros n uid lines lines' messages) (left : Nat) :
    expandFrom macros (left + n) uid lines =
      ((expandFrom macros left (uid + n) lines').1,
        messages ++ (expandFrom macros left (uid + n) lines').2) := by
  induction hs with
  | refl uid lines => rfl
  | @head n uid _ _ _ _ _ hstep _ ih =>
    rw [← Nat.add_assoc, hstep.expandFrom_eq, ih, Nat.add_right_comm uid 1 n, List.append_assoc]
    rfl

/-- How a run ends that may make so many expansions and has made some: the lines that it leaves, and
    what it reports when the expansions have reported `before`. -/
inductive Ends (macros : List Macro) (left made : Nat) (lines : List Line)
    (before : List Message) : List Message → Prop
  | limit {kept : List Line} {u : Use} (hmade : made = left) (h : FirstUse macros lines kept u) :
      Ends macros left made lines before (before ++ [limitMessage u.mac u.line])
  | normal (h : ∀ l ∈ lines, ¬ l.Uses macros) : Ends macros left made lines before before

/-- A run ends in the same way after one expansion more. -/
theorem Ends.cons {left made : Nat} {lines : List Line} {before after : List Message}
    (h : Ends macros left made lines before after) (messages : List Message) :
    Ends macros (left + 1) (made + 1) lines (messages ++ before) (messages ++ after) := by
  cases h with
  | limit hmade hu =>
    rw [← List.append_assoc]
    exact .limit (congrArg Nat.succ hmade) hu
  | normal h => exact .normal h

/-- **Every run is made of single expansions**, no more of them than are allowed, and none of these
    reports that there are too many. -/
theorem exists_steps (macros : List Macro) (left uid : Nat) {kept : List Line}
    (hkept : ∀ l ∈ kept, ¬ l.Uses macros) (lines : List Line) :
    ∃ n ≤ left, ∃ messages,
      Steps macros n uid (kept ++ lines) (kept ++ (expandFrom macros left uid lines).1) messages ∧
      (∀ x ∈ messages, ¬ IsLimit x) ∧
      Ends macros left n (kept ++ (expandFrom macros left uid lines).1) messages
        (expandFrom macros left uid lines).2 := by
  -- the lines in front grow by those that the search passes; none of them ever uses a macro
  induction left generalizing uid kept lines with
  | zero =>
    refine ⟨0, Nat.le_refl 0, [], ?_⟩
    rcases not_uses_or_firstUse macros lines with hnone | ⟨passed, u, rfl, hpassed, hu⟩
    · rw [expandFrom_of_not_uses hnone]
      exact ⟨.refl uid _, by simp, .normal (List.forall_mem_append.2 ⟨hkept, hnone⟩)⟩
    · have hfront : ∀ l ∈ kept ++ passed, ¬ l.Uses macros :=
        List.forall_mem_append.2 ⟨hkept, hpassed⟩
      rw [expandFrom_append_of_not_uses hpassed, expandFrom_zero_of_use hu]
      have hends : Ends macros 0 0 (kept ++ (passed ++ u.line :: u.rest)) []
          ([] ++ [limitMessage u.mac u.line]) :=
        .limit rfl ⟨(List.append_assoc _ _ _).symm, hfront, hu⟩
      exact ⟨.refl uid _, by simp, hends⟩
  | succ left ih =>
    rcases not_uses_or_firstUse macros lines with hnone | ⟨passed, u, rfl, hpassed, hu⟩
    · rw [expandFrom_of_not_uses hnone]
      exact ⟨0, Nat.zero_le _, [], .refl uid _, by simp,
        .normal (List.forall_mem_append.2 ⟨hkept, hnone⟩)⟩
    · have hfront : ∀ l ∈ kept ++ passed, ¬ l.Uses macros :=
        List.forall_mem_append.2 ⟨hkept, hpassed⟩
      rw [expandFrom_append_of_not_uses hpassed, expandFrom_cons_of_use hu]
      obtain ⟨n, hn, messages, hsteps, hlimit, hends⟩ :=
        ih (uid + 1) hfront (expandUse u uid).1
      have hstep : Step macros uid (kept ++ passed ++ u.line :: u.rest)
          (kept ++ passed ++ (expandUse u uid).1) (expandUse u uid).2 :=
        .expand ⟨rfl, hfront, hu⟩
      simp only [← List.append_assoc]
      exact ⟨n + 1, Nat.succ_le_succ hn, (expandUse u uid).2 ++ messages, .head hstep hsteps,
        List.forall_mem_append.2 ⟨fun x => not_isLimit_of_mem_expandUse, hlimit⟩,
        hends.cons (expandUse u uid).2⟩

end Expansion

/-- What the first expansions report is reported first. -/
theorem MacroTable.prefix_of_steps {table : MacroTable} {lines lines' : List Line} {n : Nat}
    {messages : List Message} (hs : Expansion.Steps table.values n 1 lines lines' messages)
    (hn : n ≤ Expansion.limit) : messages <+: (table.expand lines).2.toList := by
  have hrun := hs.expandFrom_eq (Expansion.limit - n)
  rw [Nat.sub_add_cancel hn] at hrun
  have hreport : (table.expand lines).2.toList =
      (Expansion.expandFrom table.values Expansion.limit 1 lines).2 := Report.toList_ofList _
  rw [hreport, hrun]
  exact List.prefix_append _ _

/-- **Expansion ends in normal form or at its limit.** It is a run of at most 10000 expansions. Either
    it has made them all, there is still a use, and the last message, and no other one, says so; or
    no line of the result uses a macro, whatever else was reported, and expanding the result again
    changes nothing and reports nothing. -/
theorem MacroTable.expand_normal_or_limit (table : MacroTable) (lines : List Line) :
    ∃ n ≤ 10000, ∃ messages,
      Expansion.Steps table.values n 1 lines (table.expand lines).1 messages ∧
      (∀ x ∈ messages, ¬ Expansion.IsLimit x) ∧
      ((n = 10000 ∧ ∃ kept u, Expansion.FirstUse table.values (table.expand lines).1 kept u ∧
          (table.expand lines).2.toList = messages ++ [Expansion.limitMessage u.mac u.line]) ∨
        ((table.expand lines).2.toList = messages ∧
          (∀ l ∈ (table.expand lines).1, ¬ l.Uses table.values) ∧
          table.expand (table.expand lines).1 = ((table.expand lines).1, .empty))) := by
  obtain ⟨n, hn, messages, hsteps, hlimit, hends⟩ :=
    Expansion.exists_steps table.values Expansion.limit 1 (List.forall_mem_nil _) lines
  simp only [List.nil_append] at hsteps hends
  have hlines : (table.expand lines).1 =
      (Expansion.expandFrom table.values Expansion.limit 1 lines).1 := rfl
  have hreport : (table.expand lines).2.toList =
      (Expansion.expandFrom table.values Expansion.limit 1 lines).2 := Report.toList_ofList _
  rw [← hlines] at hsteps hends
  rw [← hreport] at hends
  refine ⟨n, hn, messages, hsteps, hlimit, ?_⟩
  generalize hr : (table.expand lines).2.toList = report at hends ⊢
  cases hends with
  | limit hmade hu => exact .inl ⟨hmade, _, _, hu, rfl⟩
  | normal hnone =>
    refine .inr ⟨rfl, hnone, ?_⟩
    have hagain := Expansion.expandFrom_of_not_uses hnone Expansion.limit 1
    simp only [MacroTable.expand] at hagain ⊢
    rw [hagain]
    rfl

end MacroAsm
