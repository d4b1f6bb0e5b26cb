import MacroAsm.Proofs.Isa.Numerals
import MacroAsm.Proofs.Target.Assembly
import MacroAsm.Target.Nasm

set_option autoImplicit false

/-! # Lines of assembler code

What the lines of a program say when they are read (`Nasm.Item.elementsOf_written`): each instruction
is written as an operation with its operands, and each label as a definition. -/

namespace MacroAsm

namespace Nasm

open Assembly

/-! ## What lines say -/

/-- The operation of an instruction. -/
def Instr.mnemonic : Instr → String
  | .nop => "nop"
  | .unary op _ => op.written
  | .binary op _ _ => op.written
  | .jump c _ => c.written
  | .call _ => "call"

/-- What an instruction works on. -/
def Instr.operands : Instr → List String
  | .nop => []
  | .unary _ a => [a.written]
  | .binary _ a b => [a.written, b.written]
  | .jump _ l => [l.written]
  | .call l => [l.written]

/-- An instruction as it is read: what is written, cut into its operation and operands. -/
def Instr.element (i : Instr) : Element :=
  .operation (splitInstruction i.written).1 (splitInstruction i.written).2

/-- The name of a part of the output. -/
def Section.name : Section → String
  | .data => ".data"
  | .text => ".text"

/-- A line as it is read. -/
def Item.elements : Item → List Element
  | .slot pc _ => [.label (Label.slot pc).written]
  | .instr i => [i.element]
  | .blank => []
  | .romSize n => [.label "ROM_SIZE", .operation "equ" [toString n]]
  | .enter s => [.operation "section" [s.name]]
  | .table => [.label "rom_table"]
  | .row slots => [.operation "dq" (slots.map fun pc => (Label.slot pc).written)]

/-! ## Names -/

theorem isNameChar_of_isDigit {c : Char} (h : c.isDigit = true) : isNameChar c = true := by
  simp [isNameChar, Char.isAlphanum, h]

theorem isDigit_of_mem_toString {n : Nat} {c : Char} (hc : c ∈ (toString n).toList) :
    c.isDigit = true :=
  Numeral.isDigit_of_mem_toDigits (by simpa using hc)

theorem isName_toString (n : Nat) : IsName (toString n) where
  nonempty := by simp
  name := fun _ hc => isNameChar_of_isDigit (isDigit_of_mem_toString hc)

theorem toString_inj {m n : Nat} (h : toString m = toString n) : m = n := by
  have hdigits : Nat.toDigits 10 m = Nat.toDigits 10 n := by
    simpa using congrArg String.toList h
  have hvalue := congrArg (Nat.ofDigitChars 10 · 0) hdigits
  simpa only [Nat.ofDigitChars_ten_toDigits] using hvalue

theorem IsName.append {s t : String} (hs : IsName s) (ht : IsName t) : IsName (s ++ t) where
  nonempty := by simp [hs.nonempty]
  name := fun c hc => by
    rw [String.toList_append] at hc
    rcases List.mem_append.1 hc with hc | hc
    · exact hs.name c hc
    · exact ht.name c hc

theorem written_slot (pc : Nat) : (Label.slot pc).written = "mccpu_" ++ toString pc := rfl

theorem isName_label (l : Label) : IsName l.written := by
  cases l with
  | slot pc => exact IsName.append (by decide) (isName_toString pc)
  | finish => decide
  | push => decide
  | pop => decide
  | dispatch => decide
  | out => decide

theorem prefix_label (l : Label) : "mccpu_".toList <+: l.written.toList := by
  cases l with
  | slot pc => exact ⟨(toString pc).toList, by rw [written_slot, String.toList_append]⟩
  | finish => decide
  | push => decide
  | pop => decide
  | dispatch => decide
  | out => decide

theorem slot_inj {k l : Nat} (h : (Label.slot k).written = (Label.slot l).written) : k = l := by
  rw [written_slot, written_slot, ← String.toList_inj, String.toList_append, String.toList_append] at h
  exact toString_inj (String.toList_inj.1 (List.append_cancel_left h))

/-! ## Operands -/

/-- A name is an operand unless it is the word that defines a number. -/
theorem isOperand_of_isName {s : String} (h : IsName s) (hequ : s ≠ "equ") : IsOperand s where
  trimmed := h.isMnemonic.trimmed
  comma := fun hc => (isNameChar_facts (h.name _ hc)).2.2.2.2 rfl
  nonempty := h.nonempty
  uncut := h.uncut
  colon := fun hc => absurd (h.name _ (List.mem_of_mem_head? hc)) (by decide)
  equ := by
    rw [List.takeWhile_eq_self_iff.2 h.name]
    exact fun heq => hequ (String.toList_inj.1 heq)

/-- So is a text that begins with no name and ends with no blank. -/
theorem isOperand_of_bracket {s : String} {cs : List Char} (h : s.toList = '[' :: (cs ++ [']']))
    (hcomma : ',' ∉ cs) (huncut : Uncut cs) : IsOperand s where
  trimmed := by
    rw [h]
    exact Text.Trimmed.append (a := ['[']) (b := [']']) (by decide) (by decide) (by simp) (by simp) cs
  comma := by simp [h, hcomma]
  nonempty := by simp [h]
  uncut := by
    rw [h]
    exact Uncut.append (a := ['[']) (by decide) (huncut.append (by decide))
  colon := by simp [h]
  equ := by
    have hbracket : isNameChar '[' = false := by decide
    simp [h, hbracket]

theorem isOperand_toString (n : Nat) : IsOperand (toString n) :=
  isOperand_of_isName (isName_toString n) fun h => by
    have hdigit := isDigit_of_mem_toString (n := n) (c := 'e') (by simp [h])
    exact absurd hdigit (by decide)

theorem isOperand_label (l : Label) : IsOperand l.written := by
  refine isOperand_of_isName (isName_label l) fun h => ?_
  have hbegins := prefix_label l
  rw [h] at hbegins
  exact absurd hbegins (by decide)

theorem uncut_toString (n : Nat) : ',' ∉ (toString n).toList ∧ Uncut (toString n).toList :=
  ⟨(isOperand_toString n).comma, (isOperand_toString n).uncut⟩

theorem isOperand_cell (c : Cell) : IsOperand c.written := by
  have hindexed (base : String) (i : Nat) (hcomma : ',' ∉ base.toList) (huncut : Uncut base.toList) :
      IsOperand s!"[{base} + {i}]" := by
    have hlist : (s!"[{base} + {i}]").toList =
        '[' :: (base.toList ++ " + ".toList ++ (toString i).toList ++ [']']) := by
      show ("[" ++ base ++ " + " ++ toString i ++ "]").toList = _
      simp
    refine isOperand_of_bracket hlist ?_ ((huncut.append (by decide)).append (uncut_toString i).2)
    simpa [hcomma] using (uncut_toString i).1
  cases c with
  | register i => exact hindexed "registers" i (by decide) (by decide)
  | memory i => exact hindexed "memory" i (by decide) (by decide)
  | indexed =>
    have hlist : Cell.indexed.written.toList = '[' :: ("rcx + rdx".toList ++ [']']) := by decide
    exact isOperand_of_bracket hlist (by decide) (by decide)

theorem isOperand_arg (a : Arg) : IsOperand a.written := by
  cases a with
  | reg r => exact isOperand_of_isName (by cases r <;> decide) (by cases r <;> decide)
  | cell c => exact isOperand_cell c
  | byteCell c =>
    have hc := isOperand_cell c
    have hlist : (Arg.byteCell c).written.toList = "byte".toList ++ [' '] ++ c.written.toList := by
      show ("byte " ++ c.written).toList = _
      simp
    have hblank : isNameChar ' ' = false := by decide
    exact {
      trimmed := hlist ▸ Text.Trimmed.append (by decide) hc.trimmed (by decide) hc.nonempty [' ']
      comma := by
        rw [hlist]
        simpa using hc.comma
      nonempty := by simp [hlist]
      uncut := hlist ▸ Uncut.append (by decide) hc.uncut
      colon := by simp [hlist]
      equ := by
        have hword : ∀ c ∈ "byte".toList, isNameChar c = true := List.all_eq_true.1 (by decide)
        rw [hlist, List.append_assoc, List.takeWhile_append_of_pos hword, List.singleton_append,
          List.takeWhile_cons_of_neg (by simp [hblank])]
        decide }
  | num n => exact isOperand_toString n
  | memorySize => exact isOperand_of_isName (by decide) (by decide)
  | memoryBase =>
    have hlist : Arg.memoryBase.written.toList = '[' :: ("memory".toList ++ [']']) := by decide
    exact isOperand_of_bracket hlist (by decide) (by decide)

/-! ## Lines -/

theorem isOperand_operands (i : Instr) : ∀ a ∈ i.operands, IsOperand a := by
  cases i with
  | nop => simp [Instr.operands]
  | unary op a => simpa [Instr.operands] using isOperand_arg a
  | binary op a b => simpa [Instr.operands] using ⟨isOperand_arg a, isOperand_arg b⟩
  | jump c l => simpa [Instr.operands] using isOperand_label l
  | call l => simpa [Instr.operands] using isOperand_label l

theorem isName_mnemonic (i : Instr) : IsName i.mnemonic := by
  have hunary (op : UnaryOp) : IsName op.written := by cases op <;> decide
  have hbinary (op : BinaryOp) : IsName op.written := by cases op <;> decide
  have hjump (c : Condition) : IsName c.written := by cases c <;> decide
  cases i with
  | nop => decide
  | unary op a => exact hunary op
  | binary op a b => exact hbinary op
  | jump c l => exact hjump c
  | call l => exact (by decide : IsName "call")

/-- An instruction is written as its operation with its operands. -/
theorem written_instr (i : Instr) : i.written = joinOperands i.mnemonic i.operands := by
  have hone (m a : String) : joinOperands m [a] = s!"{m} {a}" := by
    show m ++ " " ++ String.intercalate ", " [a] = m ++ " " ++ a
    simp
  have htwo (m a b : String) : joinOperands m [a, b] = s!"{m} {a}, {b}" := by
    show m ++ " " ++ String.intercalate ", " [a, b] = m ++ " " ++ a ++ ", " ++ b
    simp [← String.toList_inj]
  cases i with
  | nop => rfl
  | unary op a => exact (hone _ _).symm
  | binary op a b => exact (htwo _ _ _).symm
  | jump c l => exact (hone _ _).symm
  | call l => exact (hone "call" l.written).symm ▸ (by
      show "call " ++ l.written = "call" ++ " " ++ l.written
      simp)

theorem element_eq (i : Instr) : i.element = .operation i.mnemonic i.operands := by
  rw [Instr.element, written_instr, splitInstruction_joinOperands (isName_mnemonic i).isMnemonic
    fun a ha => (isOperand_operands i a ha).toIsArgument]

theorem written_row (slots : List Nat) (h : slots ≠ []) : (Item.row slots).written =
    "    " ++ joinOperands "dq" (slots.map fun pc => (Label.slot pc).written) := by
  obtain ⟨k, ks, rfl⟩ := List.exists_cons_of_ne_nil h
  simp [Item.written, joinOperands, ← String.toList_inj]

/-- What a line of code says. Rows are never empty. -/
theorem elementsOf_written {item : Item} (h : item ≠ .row []) :
    elementsOf item.written.toList = item.elements := by
  have hindent (s : String) : elementsOf ("    " ++ s).toList = elementsOf s.toList := by
    rw [String.toList_append]
    exact elementsOf_append (by simp [Text.Blank]; decide)
  cases item with
  | slot pc source =>
    cases source with
    | none =>
      have hlist : (Item.slot pc none).written.toList = (Label.slot pc).written.toList ++ [':'] := by
        show ((Label.slot pc).written ++ ":").toList = _
        simp
      rw [hlist]
      exact elementsOf_label (isName_label _) (.inl rfl)
    | some source =>
      have hlist : (Item.slot pc (some source)).written.toList =
          (Label.slot pc).written.toList ++ ':' :: ' ' :: ';' :: ' ' :: source.toList := by
        show ((Label.slot pc).written ++ ": ; " ++ source).toList = _
        simp
      rw [hlist]
      exact elementsOf_label (isName_label _) (.inr ⟨_, rfl⟩)
  | instr i =>
    rw [Item.written, hindent, written_instr,
      elementsOf_joinOperands (isName_mnemonic i) (isOperand_operands i), ← element_eq]
    rfl
  | blank => rfl
  | romSize n =>
    have hwritten : (Item.romSize n).written =
        joinOperands "ROM_SIZE" [joinOperands "equ" [toString n]] := by
      show "ROM_SIZE equ " ++ toString n = _
      simp [joinOperands, ← String.toList_inj]
    rw [hwritten, elementsOf_equ (by decide) (isOperand_toString n)]
    rfl
  | enter s => cases s <;> decide
  | table => decide
  | row slots =>
    have hne : slots ≠ [] := fun hnil => h (hnil ▸ rfl)
    rw [written_row slots hne, hindent, elementsOf_joinOperands (by decide) fun a ha => ?_]
    · rfl
    · obtain ⟨k, -, rfl⟩ := List.mem_map.1 ha
      exact isOperand_label _

/-- No line of code ends early or takes the next one in, if no comment does. -/
theorem unbroken_written {item : Item} (h : item ≠ .row [])
    (hsource : ∀ pc source, item = .slot pc (some source) → Unbroken source.toList) :
    Unbroken item.written.toList := by
  have hindent (s : String) (hs : Uncut s.toList) : Unbroken ("    " ++ s).toList := by
    rw [String.toList_append]
    exact Unbroken.append (by decide) hs.2
  cases item with
  | slot pc source =>
    cases source with
    | none =>
      show Unbroken ((Label.slot pc).written ++ ":").toList
      rw [String.toList_append]
      exact (isName_label _).uncut.2.append (by decide)
    | some source =>
      show Unbroken ((Label.slot pc).written ++ ": ; " ++ source).toList
      rw [String.toList_append, String.toList_append]
      exact ((isName_label _).uncut.2.append (by decide)).append (hsource pc source rfl)
  | instr i =>
    rw [Item.written, written_instr]
    exact hindent _ (uncut_joinOperands (isName_mnemonic i).uncut
      fun a ha => (isOperand_operands i a ha).uncut)
  | blank => decide
  | romSize n =>
    show Unbroken ("ROM_SIZE equ " ++ toString n).toList
    rw [String.toList_append]
    exact Unbroken.append (by decide) (uncut_toString n).2.2
  | enter s => cases s <;> decide
  | table => decide
  | row slots =>
    have hne : slots ≠ [] := fun hnil => h (hnil ▸ rfl)
    rw [written_row slots hne]
    refine hindent _ (uncut_joinOperands (by decide) fun a ha => ?_)
    obtain ⟨k, -, rfl⟩ := List.mem_map.1 ha
    exact (isOperand_label _).uncut

end Nasm

end MacroAsm
