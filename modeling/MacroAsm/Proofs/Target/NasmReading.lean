import MacroAsm.Proofs.X86.Reading

set_option autoImplicit false

/-! # Reading the code of a program

The operations of a program's text are read as the instructions they were written for, whatever
numbers and labels they have; so are those of the template. -/

namespace MacroAsm

namespace Nasm

open Assembly

/-! ## Operands -/

/-- The part of a register of the processor. -/
def Reg.x86 : Reg → X86.Reg × X86.Width
  | .al => (.rax, .byte)
  | .bl => (.rbx, .byte)
  | .eax => (.rax, .dword)
  | .ebx => (.rbx, .dword)
  | .ecx => (.rcx, .dword)
  | .edx => (.rdx, .dword)
  | .edi => (.rdi, .dword)
  | .rcx => (.rcx, .qword)

/-- The address of a place. -/
def Cell.terms : Cell → List X86.Term
  | .register i => [.sym "registers", .num i]
  | .memory i => [.sym "memory", .num i]
  | .indexed => [.reg .rcx 1, .reg .rdx 1]

/-- An argument as an operand. -/
def Arg.x86 : Arg → X86.Operand
  | .reg r => .reg r.x86.1 r.x86.2
  | .cell c => .mem none c.terms
  | .byteCell c => .mem (some .byte) c.terms
  | .num n => .num n
  | .memorySize => .sym "MEMORY_SIZE"
  | .memoryBase => .mem none [.sym "memory"]

theorem splitOn_pair {c : Char} {a b : List Char} (ha : c ∉ a) (hb : c ∉ b) :
    (a ++ c :: b).splitOn c = [a, b] := by
  have hsplit : ([c].intercalate [a, b]).splitOn c = [a, b] :=
    List.splitOn_intercalate c (by simp [ha, hb]) (by simp)
  simpa using hsplit

theorem term?_toString (n : Nat) : X86.term? (' ' :: (toString n).toList) = some (.num n) := by
  have hstar : '*' ∉ ' ' :: (toString n).toList := by
    intro hmem
    rcases List.mem_cons.1 hmem with h | h
    · exact absurd h (by decide)
    · exact absurd (isDigit_of_mem_toString h) (by decide)
  have htrim : Text.trim (' ' :: (toString n).toList) = (toString n).toList := by
    have h := Text.trim_append_append (a := [' ']) (b := []) (by simp [Text.Blank]; decide)
      (by simp [Text.Blank]) (isOperand_toString n).trimmed
    simpa using h
  rw [X86.term?, Text.splitOn_of_notMem hstar, List.map_singleton, htrim]
  simp only [X86.number?_toString]

/-- A name and a number between brackets. -/
theorem address?_numbered {name : String} (n : Nat)
    (hname : '+' ∉ name.toList) (hterm : X86.term? (name.toList ++ [' ']) = some (.sym name)) :
    X86.address? (name.toList ++ " + ".toList ++ (toString n).toList ++ [']']) =
      some [.sym name, .num n] := by
  have hdigits : '+' ∉ ' ' :: (toString n).toList := by
    intro hmem
    rcases List.mem_cons.1 hmem with h | h
    · exact absurd h (by decide)
    · exact absurd (isDigit_of_mem_toString h) (by decide)
  have hsplit : (name.toList ++ " + ".toList ++ (toString n).toList).splitOn '+' =
      [name.toList ++ [' '], ' ' :: (toString n).toList] := by
    have h := splitOn_pair (a := name.toList ++ [' ']) (by simpa using hname) hdigits
    rw [← h]
    simp
  rw [X86.address?, if_pos List.getLast?_concat, List.dropLast_concat, hsplit, List.mapM_cons, hterm,
    List.mapM_cons, term?_toString]
  rfl

theorem operand?_bracket {s : String} {cs : List Char} (h : s.toList = '[' :: cs) :
    X86.operand? s = (X86.address? cs).map (.mem none) := by
  have hbracket : isNameChar '[' = false := by decide
  have hblank : Text.isBlank '[' = false := by decide
  rw [X86.operand?]
  simp [h, hbracket, Text.trimStart, hblank]

theorem operand?_width {s word : String} {cs : List Char} {w : X86.Width} (hword : IsName word)
    (h : s.toList = word.toList ++ ' ' :: '[' :: cs) (hw : X86.widths.lookup word = some w) :
    X86.operand? s = (X86.address? cs).map (.mem (some w)) := by
  have hspace : isNameChar ' ' = false := by decide
  have hblank : Text.isBlank '[' = false ∧ Text.isBlank ' ' = true := by decide
  obtain ⟨c, ds, hcs⟩ := List.exists_cons_of_ne_nil hword.nonempty
  have htake : s.toList.takeWhile isNameChar = word.toList := by
    rw [h, List.takeWhile_append_of_pos hword.name, List.takeWhile_cons_of_neg (by simp [hspace]),
      List.append_nil]
  have hdrop : Text.trimStart (s.toList.dropWhile isNameChar) = '[' :: cs := by
    rw [h, List.dropWhile_append_of_pos hword.name, List.dropWhile_cons_of_neg (by simp [hspace])]
    simp [Text.trimStart, hblank]
  rw [X86.operand?]
  simp only [htake, hdrop, String.ofList_toList, hw]
  rw [hcs]
  rfl

theorem operand?_name {s : String} (h : IsName s) : X86.operand? s = X86.word? s.toList := by
  obtain ⟨c, cs, hcs⟩ := List.exists_cons_of_ne_nil h.nonempty
  rw [X86.operand?]
  simp only [List.takeWhile_eq_self_iff.2 h.name, List.dropWhile_eq_nil_iff.2 h.name,
    Text.trimStart, List.dropWhile_nil]
  rw [hcs]

theorem address?_cell (c : Cell) : ∃ cs, c.written.toList = '[' :: cs ∧
    X86.address? cs = some c.terms := by
  have hnumbered (name : String) (i : Nat) (hname : '+' ∉ name.toList)
      (hterm : X86.term? (name.toList ++ [' ']) = some (.sym name)) :
      ∃ cs, (s!"[{name} + {i}]").toList = '[' :: cs ∧
        X86.address? cs = some [.sym name, .num i] := by
    refine ⟨_, ?_, address?_numbered i hname hterm⟩
    show ("[" ++ name ++ " + " ++ toString i ++ "]").toList = _
    simp
  cases c with
  | register i => exact hnumbered "registers" i (by decide) (by decide)
  | memory i => exact hnumbered "memory" i (by decide) (by decide)
  | indexed => exact ⟨"rcx + rdx]".toList, by decide, by decide⟩

/-- An argument is read as it was meant. -/
theorem operand?_arg (a : Arg) : X86.operand? a.written = some a.x86 := by
  cases a with
  | reg r => cases r <;> decide
  | cell c =>
    obtain ⟨cs, hcs, haddress⟩ := address?_cell c
    rw [Arg.written, operand?_bracket hcs, haddress]
    rfl
  | byteCell c =>
    obtain ⟨cs, hcs, haddress⟩ := address?_cell c
    have hlist : (Arg.byteCell c).written.toList = "byte".toList ++ ' ' :: '[' :: cs := by
      show ("byte " ++ c.written).toList = _
      simp [hcs]
    rw [operand?_width (by decide) hlist rfl, haddress]
    rfl
  | num n =>
    rw [Arg.written, operand?_name (isName_toString n), X86.word?, X86.number?_toString]
    rfl
  | memorySize => decide
  | memoryBase => decide

/-! ## Instructions -/

/-- Operations that name numbers or bring data. -/
def directives : List String :=
  ["equ", "%define", "resb", "db", "dq"]

/-- Instructions are none of these. -/
theorem mnemonic_notMem_directives (i : Instr) : i.mnemonic ∉ directives := by
  cases i with
  | nop => decide
  | unary op a =>
    show op.written ∉ directives
    cases op <;> decide
  | binary op a b =>
    show op.written ∉ directives
    cases op <;> decide
  | jump c l =>
    show c.written ∉ directives
    cases c <;> decide
  | call l =>
    show "call" ∉ directives
    decide

theorem equated?_of_notMem {im : X86.Image} {m : String} (h : m ∉ directives) (args : List String)
    (es : List Element) : im.equated? (.operation m args :: es) = none := by
  unfold X86.Image.equated?
  split
  · next heq =>
    cases heq
    exact absurd (by decide) h
  · rfl

/-- A jump as the processor knows it. -/
def Condition.x86 : Condition → X86.Condition
  | .always => .always
  | .equal => .equal
  | .notEqual => .notEqual

section Instructions

variable {scope : String}

theorem number?_label (l : Label) : X86.number? l.written.toList = none := by
  obtain ⟨rest, hrest⟩ := prefix_label l
  have hdigit : Char.isDigit 'm' = false := by decide
  rw [← hrest, X86.number?, if_neg]
  simp [hdigit]

theorem operand?_label (l : Label) : X86.operand? l.written = some (.sym l.written) := by
  have hbegins := prefix_label l
  have hregister : X86.registers.lookup (String.ofList l.written.toList) = none := by
    have hregisters : ∀ x ∈ X86.registers, ¬ "mccpu_".toList <+: x.1.toList := by decide
    rw [String.ofList_toList, List.lookup_eq_none_iff]
    intro x hx
    refine bne_iff_ne.2 ?_
    rintro heq
    exact hregisters x hx (heq ▸ hbegins)
  rw [operand?_name (isName_label l), X86.word?, number?_label, hregister, String.ofList_toList]

theorem qualify_label (l : Label) : X86.qualify scope l.written = l.written := by
  obtain ⟨rest, hrest⟩ := prefix_label l
  rw [X86.qualify, if_neg]
  rw [← hrest]
  simp

theorem linked?_label (l : Label) : X86.linked? l.written = none := by
  have hplt : "wrt ..plt".toList ≠ [] := by decide
  rw [X86.linked?]
  simp only [List.dropWhile_eq_nil_iff.2 (isName_label l).name, Text.trimStart, List.dropWhile_nil]
  rw [if_neg hplt.symm]

theorem read_nop : X86.elementInstr? scope Instr.nop.element = some (.op .nop) := by
  rw [element_eq]
  rfl

theorem read_jump (c : Condition) (l : Label) :
    X86.elementInstr? scope (Instr.jump c l).element = some (.jump c.x86 l.written) := by
  have hname : c.written ≠ "call" ∧ X86.jumps.lookup c.written = some c.x86 := by
    cases c <;> decide
  rw [element_eq]
  simp only [X86.elementInstr?, Instr.operands, Instr.mnemonic, X86.instr?, operand?_label,
    Option.bind_some, X86.ofOperand, hname, qualify_label, Option.map_some, false_and, if_false]

theorem read_call (l : Label) :
    X86.elementInstr? scope (Instr.call l).element = some (.call l.written) := by
  rw [element_eq]
  simp only [X86.elementInstr?, Instr.operands, Instr.mnemonic, X86.instr?, operand?_label,
    Option.bind_some, X86.ofOperand, linked?_label, qualify_label, Option.isSome_none,
    Bool.false_eq_true, and_false, if_false, if_true]

theorem read_unary {op : UnaryOp} {a : Arg} {i : X86.Instr}
    (h : X86.ofOperand scope op.written a.x86 = some i) :
    X86.elementInstr? scope (Instr.unary op a).element = some i := by
  have hname : op.written ≠ "call" := by cases op <;> decide
  rw [element_eq]
  simp only [X86.elementInstr?, Instr.operands, Instr.mnemonic, X86.instr?, operand?_arg,
    Option.bind_some, hname, false_and, if_false, h]

theorem read_binary {op : BinaryOp} {a b : Arg} {i : X86.Instr}
    (h : X86.ofOperandPair op.written a.x86 b.x86 = some i) :
    X86.elementInstr? scope (Instr.binary op a b).element = some i := by
  rw [element_eq]
  simp only [X86.elementInstr?, Instr.operands, Instr.mnemonic, X86.instr?, operand?_arg,
    Option.bind_some, h]

end Instructions

end Nasm

end MacroAsm
