import MacroAsm.Isa.Instruction
import MacroAsm.Proofs.Isa.Operands
import MacroAsm.Proofs.Lists

set_option autoImplicit false

/-! # Written instructions

An instruction that was read is written in a form that is read as the same instruction
(`Instruction.parse_written`). Its mnemonic and the kinds of its operands are those of a native form,
and no two native forms agree in both. -/

namespace MacroAsm

/-! ## Cutting what is joined -/

/-- Texts that are found again between commas: they hold no comma, and blanks at their ends would be
    lost. -/
structure IsArgument (s : String) : Prop where
  trimmed : Text.Trimmed s.toList
  comma : ',' ∉ s.toList
  nonempty : s.toList ≠ []

/-- Arguments with commas in between; behind a comma the next argument has a space before it. -/
theorem toList_intercalate_cons (a : String) (as : List String) :
    (String.intercalate ", " (a :: as)).toList =
      [','].intercalate (a.toList :: as.map fun b => ' ' :: b.toList) := by
  induction as generalizing a with
  | nil => simp [String.intercalate_singleton]
  | cons b as ih =>
    rw [String.intercalate_cons_cons, String.toList_append, String.toList_append, ih b]
    cases as with
    | nil => simp
    | cons d as => simp

/-- Commas cut what they joined. -/
theorem splitOn_intercalate {a : String} {as : List String} (h : ∀ b ∈ a :: as, IsArgument b) :
    (String.intercalate ", " (a :: as)).toList.splitOn ',' =
      a.toList :: as.map fun b => ' ' :: b.toList := by
  rw [toList_intercalate_cons]
  refine List.splitOn_intercalate ',' (fun l hl => ?_) (List.cons_ne_nil _ _)
  rcases List.mem_cons.1 hl with rfl | hl
  · exact (h a List.mem_cons_self).comma
  · obtain ⟨b, hb, rfl⟩ := List.mem_map.1 hl
    simpa using (h b (List.mem_cons_of_mem a hb)).comma

/-- Joining adds nothing but commas and spaces. -/
theorem mem_intercalate {args : List String} {c : Char}
    (hc : c ∈ (String.intercalate ", " args).toList) :
    c = ',' ∨ c = ' ' ∨ ∃ a ∈ args, c ∈ a.toList := by
  cases args with
  | nil => simp at hc
  | cons a as =>
    induction as generalizing a with
    | nil => exact .inr (.inr ⟨a, List.mem_cons_self, by simpa using hc⟩)
    | cons b as ih =>
      rw [String.intercalate_cons_cons, String.toList_append, String.toList_append] at hc
      rcases List.mem_append.1 hc with h | h
      · rcases List.mem_append.1 h with h | h
        · exact .inr (.inr ⟨a, List.mem_cons_self, h⟩)
        · rcases List.mem_cons.1 h with rfl | h
          · exact .inl rfl
          · exact .inr (.inl (List.mem_singleton.1 h))
      · rcases ih b h with h | h | ⟨d, hd, h⟩
        · exact .inl h
        · exact .inr (.inl h)
        · exact .inr (.inr ⟨d, List.mem_cons_of_mem a hd, h⟩)

/-- Arguments that are cut are trimmed again. -/
theorem map_trim_splitOn {a : String} {as : List String} (h : ∀ b ∈ a :: as, IsArgument b) :
    ((String.intercalate ", " (a :: as)).toList.splitOn ',').map
      (fun p => String.ofList (Text.trim p)) = a :: as := by
  -- the space behind a comma is trimmed away
  have hspace (b : String) (hb : IsArgument b) : Text.trim (' ' :: b.toList) = b.toList := by
    have h := Text.trim_append_append (a := [' ']) (b := []) (by simp [Text.Blank]; decide)
      (by simp [Text.Blank]) hb.trimmed
    simpa using h
  rw [splitOn_intercalate h, List.map_cons, Text.trim_eq_self (h a List.mem_cons_self).trimmed,
    List.map_map, String.ofList_toList]
  congr 1
  refine (List.map_congr_left fun b hb => ?_).trans (List.map_id as)
  rw [Function.comp_apply, hspace b (h b (List.mem_cons_of_mem a hb)), String.ofList_toList]
  rfl

theorem intercalate_ne_nil {a : String} {as : List String} (h : IsArgument a) :
    (String.intercalate ", " (a :: as)).toList ≠ [] := by
  rw [toList_intercalate_cons]
  intro hnil
  cases as with
  | nil => exact h.nonempty (by simpa using hnil)
  | cons b as => simp at hnil

/-- The joined arguments are trimmed as their first and last ones are. -/
theorem trimmed_intercalate {a : String} {as : List String} (h : ∀ b ∈ a :: as, IsArgument b) :
    Text.Trimmed (String.intercalate ", " (a :: as)).toList := by
  induction as generalizing a with
  | nil => simpa [String.intercalate_singleton] using (h a List.mem_cons_self).trimmed
  | cons b as ih =>
    have ha := h a List.mem_cons_self
    have htail := fun c hc => h c (List.mem_cons_of_mem a hc)
    rw [String.intercalate_cons_cons, String.toList_append, String.toList_append]
    exact ha.trimmed.append (ih htail) ha.nonempty
      (intercalate_ne_nil (htail b List.mem_cons_self)) _

/-- A mnemonic is cut off at the first blank, so it holds none. -/
structure IsMnemonic (m : String) : Prop where
  nonempty : m.toList ≠ []
  blank : ∀ c ∈ m.toList, Text.isBlank c = false

theorem IsMnemonic.trimmed {m : String} (hm : IsMnemonic m) : Text.Trimmed m.toList :=
  Text.trimmed_of_forall hm.blank

theorem IsMnemonic.splitAtBlank {m : String} (hm : IsMnemonic m) :
    Text.splitAtBlank m.toList = none :=
  Text.splitAtBlank_eq_none hm.blank

theorem IsMnemonic.splitAtBlank_append {m : String} (hm : IsMnemonic m) (cs : List Char) :
    Text.splitAtBlank (m.toList ++ ' ' :: cs) = some (m.toList, cs) :=
  Text.splitAtBlank_append hm.blank (by decide) cs

theorem toList_joinOperands_cons (m a : String) (as : List String) :
    (joinOperands m (a :: as)).toList =
      m.toList ++ [' '] ++ (String.intercalate ", " (a :: as)).toList := by
  simp [joinOperands]

/-- A joined instruction is trimmed. -/
theorem trimmed_joinOperands {m : String} {args : List String} (hm : IsMnemonic m)
    (h : ∀ a ∈ args, IsArgument a) : Text.Trimmed (joinOperands m args).toList := by
  cases args with
  | nil => exact hm.trimmed
  | cons a as =>
    rw [toList_joinOperands_cons]
    exact hm.trimmed.append (trimmed_intercalate h) hm.nonempty
      (intercalate_ne_nil (h a List.mem_cons_self)) _

/-- What is joined is cut into the same parts. -/
theorem splitInstruction_joinOperands {m : String} {args : List String} (hm : IsMnemonic m)
    (h : ∀ a ∈ args, IsArgument a) : splitInstruction (joinOperands m args) = (m, args) := by
  unfold splitInstruction
  rw [Text.trim_eq_self (trimmed_joinOperands hm h)]
  cases args with
  | nil => simp [joinOperands, hm.splitAtBlank]
  | cons a as =>
    have hne : (String.intercalate ", " (a :: as)).toList ≠ [] :=
      intercalate_ne_nil (h a List.mem_cons_self)
    rw [toList_joinOperands_cons, List.append_assoc, List.singleton_append]
    simp only [hm.splitAtBlank_append, Text.trim_eq_self (trimmed_intercalate h),
      String.ofList_toList, List.isEmpty_iff, if_neg hne, map_trim_splitOn h]

/-! ## The parts of a text -/

/-- A text is cut at its first blank, which belongs to neither side. -/
theorem eq_append_of_splitAtBlank {cs m rest : List Char}
    (h : Text.splitAtBlank cs = some (m, rest)) :
    ∃ c, Text.isBlank c = true ∧ cs = m ++ c :: rest := by
  unfold Text.splitAtBlank at h
  split at h
  · simp at h
  · next c tail hdrop =>
    obtain ⟨rfl, rfl⟩ := Prod.mk.inj (Option.some.inj h)
    have hhead := List.head?_dropWhile_not (fun c => !Text.isBlank c) cs
    rw [hdrop] at hhead
    refine ⟨c, by simpa using hhead, ?_⟩
    rw [← hdrop, List.takeWhile_append_dropWhile]

/-- A text is its mnemonic among blanks, its operands with commas in between, and blanks. -/
theorem exists_eq_append_intercalate (s : String) :
    ∃ pre ps post, s.toList = pre ++ [','].intercalate ps ++ post ∧
      (∀ c ∈ pre, Text.isBlank c = true ∨ c ∈ (splitInstruction s).1.toList) ∧ Text.Blank post ∧
      (splitInstruction s).2 = ps.map fun p => String.ofList (Text.trim p) := by
  obtain ⟨a, b, ha, hb, htext, -⟩ := Text.exists_eq_append_trim s.toList
  cases hm : Text.splitAtBlank (Text.trim s.toList) with
  | none =>
    have hparts : splitInstruction s = (String.ofList (Text.trim s.toList), []) := by
      simp only [splitInstruction, hm]
    rw [hparts]
    refine ⟨s.toList, [], [], by simp, fun c hc => ?_, by simp [Text.Blank], rfl⟩
    rw [htext] at hc
    simp only [String.toList_ofList]
    rcases List.mem_append.1 hc with hc | hc
    · rcases List.mem_append.1 hc with hc | hc
      · exact .inl (ha c hc)
      · exact .inr hc
    · exact .inl (hb c hc)
  | some cut =>
    obtain ⟨m, rest⟩ := cut
    obtain ⟨d, hd, hline⟩ := eq_append_of_splitAtBlank hm
    obtain ⟨a', b', ha', hb', hrest, -⟩ := Text.exists_eq_append_trim rest
    have hpre : ∀ c ∈ a ++ m ++ d :: a', Text.isBlank c = true ∨ c ∈ m := by
      intro c hc
      rcases List.mem_append.1 hc with hc | hc
      · rcases List.mem_append.1 hc with hc | hc
        · exact .inl (ha c hc)
        · exact .inr hc
      · rcases List.mem_cons.1 hc with rfl | hc
        · exact .inl hd
        · exact .inl (ha' c hc)
    have hpost : Text.Blank (b' ++ b) := by
      intro c hc
      rcases List.mem_append.1 hc with hc | hc
      · exact hb' c hc
      · exact hb c hc
    have hwhole : s.toList = a ++ m ++ d :: a' ++ Text.trim rest ++ (b' ++ b) := by
      rw [htext, hline]
      conv => lhs; rw [hrest]
      simp
    -- a mnemonic with nothing but blanks behind it has no operands, not an empty one
    by_cases hempty : (Text.trim rest).isEmpty = true
    · have hparts : splitInstruction s = (String.ofList m, []) := by
        simp only [splitInstruction, hm, if_pos hempty]
      rw [hparts]
      refine ⟨a ++ m ++ d :: a', [], b' ++ b, ?_, ?_, hpost, rfl⟩
      · rw [List.isEmpty_iff.1 hempty] at hwhole
        simpa using hwhole
      · simpa using hpre
    · have hparts : splitInstruction s = (String.ofList m,
          ((Text.trim rest).splitOn ',').map fun p => String.ofList (Text.trim p)) := by
        simp only [splitInstruction, hm, if_neg hempty]
      rw [hparts]
      refine ⟨a ++ m ++ d :: a', (Text.trim rest).splitOn ',', b' ++ b, ?_, ?_, hpost, rfl⟩
      · rw [List.intercalate_splitOn]
        exact hwhole
      · simpa using hpre

/-- An operand holds no characters that are not in the text. -/
theorem mem_of_mem_splitInstruction {s a : String} (ha : a ∈ (splitInstruction s).2) {c : Char}
    (hc : c ∈ a.toList) : c ∈ s.toList := by
  obtain ⟨pre, ps, post, htext, -, -, hparts⟩ := exists_eq_append_intercalate s
  rw [hparts] at ha
  obtain ⟨p, hp, rfl⟩ := List.mem_map.1 ha
  rw [String.toList_ofList] at hc
  rw [htext]
  exact List.mem_append_left post
    (List.mem_append_right pre (mem_intercalate_of_mem hp (Text.mem_of_mem_trim p hc)))

/-! ## Native forms -/

namespace Form

theorem eq_ofOp_of_mem_native : ∀ f ∈ native, f = ofOp f.op f.kinds := by
  decide

theorem quoted_notMem_kinds : ∀ f ∈ native, OperandKind.quoted ∉ f.kinds := by
  decide

/-- Mnemonic and kinds tell native forms apart. -/
theorem find?_native :
    ∀ f ∈ native,
      native.find? (fun g => g.mnemonic == f.mnemonic && g.kinds == f.kinds) = some f := by
  decide

end Form

theorem isIdentRest_of_mem_mnemonic (op : Opcode) :
    ∀ c ∈ op.mnemonic.toList, isIdentRest c = true :=
  List.all_eq_true.1 (by cases op <;> decide)

theorem lowered_mnemonic (op : Opcode) : Text.Lowered op.mnemonic.toList := by
  cases op <;> decide

theorem isMnemonic_mnemonic (op : Opcode) : IsMnemonic op.mnemonic := by
  refine ⟨by cases op <;> decide, fun c hc => ?_⟩
  have hrest := isIdentRest_of_mem_mnemonic op c hc
  exact (not_special_of_isOperandChar (Operand.isOperandChar_of_isIdentRest hrest)).1

namespace Instruction

/-- An instruction of the machine whose operands can be read. -/
structure Native (i : Instruction) : Prop where
  form : Form.ofOp i.op (i.operands.map Operand.kind) ∈ Form.native
  readable : ∀ x ∈ i.operands, x.Readable

/-- What is read is an instruction of the machine, its mnemonic and operands are those of the text. -/
theorem of_parse {s : String} {i : Instruction} (h : parse s = .ok i) :
    i.Native ∧ (splitInstruction s).1 = i.op.mnemonic ∧
      (splitInstruction s).2.map Operand.parse = i.operands.map .ok := by
  unfold parse at h
  generalize splitInstruction s = parts at h ⊢
  obtain ⟨mnemonic, args⟩ := parts
  dsimp only at h ⊢
  split at h
  · simp at h
  · split at h
    · simp at h
    · next operands hoperands =>
      split at h
      · next f hf =>
        obtain rfl := Except.ok.inj h
        have hmem := List.mem_of_find?_eq_some hf
        have haccepts := List.find?_some hf
        simp only [Form.accepts, Bool.and_eq_true, beq_iff_eq] at haccepts
        have heq := Form.eq_ofOp_of_mem_native f hmem
        have hmap := mapM_eq_ok_iff.1 hoperands
        refine ⟨⟨?_, fun x hx => ?_⟩, ?_, hmap⟩
        · rwa [← haccepts.2, ← heq]
        · have hx' : Except.ok x ∈ args.map Operand.parse := by
            rw [hmap]
            exact List.mem_map_of_mem hx
          obtain ⟨a, -, ha⟩ := List.mem_map.1 hx'
          exact Operand.readable_of_parse ha
        · rw [← haccepts.1, heq]
          rfl
      · simp at h

variable {i : Instruction}

/-- No instruction of the machine has a quoted operand. -/
theorem Native.kind_ne_quoted (h : i.Native) {x : Operand} (hx : x ∈ i.operands) :
    x.kind ≠ .quoted := by
  intro hq
  refine Form.quoted_notMem_kinds _ h.form ?_
  rw [← hq]
  exact List.mem_map_of_mem hx

theorem Native.isArgument (h : i.Native) {a : String} (ha : a ∈ i.operands.map Operand.written) :
    IsArgument a := by
  obtain ⟨x, hx, rfl⟩ := List.mem_map.1 ha
  have hreadable := h.readable x hx
  refine ⟨Operand.trimmed_written hreadable, fun hcomma => ?_, Operand.written_ne_nil hreadable⟩
  have hchar := Operand.isOperandChar_of_mem_written hreadable (h.kind_ne_quoted hx) hcomma
  exact absurd hchar (by decide)

theorem splitInstruction_written (h : i.Native) :
    splitInstruction i.written = (i.op.mnemonic, i.operands.map Operand.written) :=
  splitInstruction_joinOperands (isMnemonic_mnemonic i.op) fun _ ha => h.isArgument ha

/-- An instruction that was read is read again from what it is written as. -/
theorem parse_written (h : i.Native) : parse i.written = .ok i := by
  have hmnemonic : i.op.mnemonic.isEmpty = false := by
    cases i.op <;> rfl
  have hoperands : (i.operands.map Operand.written).mapM Operand.parse = .ok i.operands := by
    rw [mapM_eq_ok_iff, List.map_map]
    exact List.map_congr_left fun x hx => Operand.parse_written (h.readable x hx)
  have hform := Form.find?_native _ h.form
  simp only [parse, splitInstruction_written h, hmnemonic, hoperands]
  simp only [Form.ofOp] at hform
  simp [Form.accepts, hform]

/-- An instruction is written with the characters of its mnemonic and its operands, commas and
    spaces. -/
theorem mem_written {c : Char} (hc : c ∈ i.written.toList) :
    c ∈ i.op.mnemonic.toList ∨ c = ',' ∨ c = ' ' ∨ ∃ x ∈ i.operands, c ∈ x.written.toList := by
  have hargs : ∀ args, (∀ a ∈ args, ∃ x ∈ i.operands, x.written = a) →
      c ∈ (joinOperands i.op.mnemonic args).toList →
      c ∈ i.op.mnemonic.toList ∨ c = ',' ∨ c = ' ' ∨ ∃ x ∈ i.operands, c ∈ x.written.toList := by
    intro args hall hc
    cases args with
    | nil => exact .inl hc
    | cons a as =>
      rw [toList_joinOperands_cons] at hc
      rcases List.mem_append.1 hc with hc | hc
      · rcases List.mem_append.1 hc with hc | hc
        · exact .inl hc
        · exact .inr (.inr (.inl (List.mem_singleton.1 hc)))
      · rcases mem_intercalate hc with hc | hc | ⟨b, hb, hc⟩
        · exact .inr (.inl hc)
        · exact .inr (.inr (.inl hc))
        · obtain ⟨x, hx, rfl⟩ := hall b hb
          exact .inr (.inr (.inr ⟨x, hx, hc⟩))
  exact hargs _ (fun a ha => List.mem_map.1 ha) hc

theorem isOperandChar_of_mem_written (h : i.Native) {c : Char} (hc : c ∈ i.written.toList) :
    isOperandChar c = true ∨ c = ',' ∨ c = ' ' := by
  rcases mem_written hc with hc | hc | hc | ⟨x, hx, hc⟩
  · exact .inl (Operand.isOperandChar_of_isIdentRest (isIdentRest_of_mem_mnemonic i.op c hc))
  · exact .inr (.inl hc)
  · exact .inr (.inr hc)
  · exact .inl (Operand.isOperandChar_of_mem_written (h.readable x hx) (h.kind_ne_quoted hx) hc)

/-- An instruction is written in lower case if it was read in lower case. -/
theorem lowered_written {s : String} (hs : Text.Lowered s.toList) (h : parse s = .ok i) :
    Text.Lowered i.written.toList := by
  obtain ⟨hnative, -, hoperands⟩ := of_parse h
  intro c hc
  rcases mem_written hc with hc | rfl | rfl | ⟨x, hx, hc⟩
  · exact lowered_mnemonic i.op c hc
  · decide
  · decide
  · have hmem : Except.ok x ∈ (splitInstruction s).2.map Operand.parse := by
      rw [hoperands]
      exact List.mem_map_of_mem hx
    obtain ⟨a, ha, hparse⟩ := List.mem_map.1 hmem
    have hlow : Text.Lowered a.toList := fun d hd => hs d (mem_of_mem_splitInstruction ha hd)
    exact Operand.lowered_written hlow hparse (hnative.kind_ne_quoted hx) c hc

theorem trimmed_written (h : i.Native) : Text.Trimmed i.written.toList :=
  trimmed_joinOperands (isMnemonic_mnemonic i.op) fun _ ha => h.isArgument ha

theorem written_ne_nil (i : Instruction) : i.written.toList ≠ [] := by
  have hne := (isMnemonic_mnemonic i.op).nonempty
  unfold written
  cases i.operands.map Operand.written with
  | nil => exact hne
  | cons a as =>
    rw [toList_joinOperands_cons]
    intro hnil
    exact hne (List.append_eq_nil_iff.1 (List.append_eq_nil_iff.1 hnil).1).1

end Instruction

end MacroAsm
