import MacroAsm.Program.Statement
import MacroAsm.Proofs.Isa.Instructions
import MacroAsm.Proofs.Text.LowerCase

set_option autoImplicit false

/-! # Written statements

A statement that was read is read again from what it is written as (`Statement.parse_written`). It is
written on one line, without a comment, and in characters that have no other lower-case form unless
its names do. -/

namespace MacroAsm

/-- The characters that statements are written with. -/
def isCodeChar (c : Char) : Bool :=
  isOperandChar c || c == ',' || c == ' ' || c == ':'

theorem toNat_lt_of_isCodeChar {c : Char} (h : isCodeChar c = true) : c.toNat < 128 := by
  simp only [isCodeChar, Bool.or_eq_true, beq_iff_eq] at h
  rcases h with ((h | rfl) | rfl) | rfl
  · exact toNat_lt_of_isOperandChar h
  · decide
  · decide
  · decide

/-- Nothing that begins a comment or a directive or ends a line stands in a statement. -/
theorem not_special_of_isCodeChar {c : Char} (h : isCodeChar c = true) :
    c ≠ '/' ∧ c ≠ '#' ∧ c ≠ '\n' ∧ c ≠ '\r' := by
  have hall := Text.forall_ascii (p := fun c => !isCodeChar c ||
    c != '/' && c != '#' && c != '\n' && c != '\r') (by decide +kernel) (toNat_lt_of_isCodeChar h)
  simpa [h, and_assoc] using hall

namespace Statement

/-- What a line of code can be read as. -/
def Readable : Statement → Prop
  | .label name => isIdent name = true
  | .instruction i => i.Native

theorem readable_of_parse {code : String} {s : Statement} (h : parse code = .ok (some s)) :
    s.Readable := by
  unfold parse at h
  dsimp only at h
  split at h
  · simp at h
  · split at h
    · next hident =>
      obtain rfl := Option.some.inj (Except.ok.inj h)
      simpa [Readable, isIdent] using hident
    · simp at h
  · split at h
    · next i hi =>
      obtain rfl := Option.some.inj (Except.ok.inj h)
      exact (Instruction.of_parse hi).1
    · simp at h

variable {s : Statement}

theorem isCodeChar_of_mem_written (h : s.Readable) {c : Char} (hc : c ∈ s.written.toList) :
    isCodeChar c = true := by
  cases s with
  | label name =>
    rw [written, String.toList_append] at hc
    rcases List.mem_append.1 hc with hc | hc
    · have hrest := isIdentRest_of_mem h hc
      simp [isCodeChar, Operand.isOperandChar_of_isIdentRest hrest]
    · obtain rfl := List.mem_singleton.1 hc
      decide
  | instruction i =>
    rcases Instruction.isOperandChar_of_mem_written h hc with hc | rfl | rfl
    · simp [isCodeChar, hc]
    · decide
    · decide

theorem isBlank_of_mem_ident {name : String} (h : isIdent name = true) {c : Char}
    (hc : c ∈ name.toList) : Text.isBlank c = false :=
  (not_special_of_isOperandChar
    (Operand.isOperandChar_of_isIdentRest (isIdentRest_of_mem h hc))).1

theorem trimmed_written (h : s.Readable) : Text.Trimmed s.written.toList := by
  cases s with
  | label name =>
    refine Text.trimmed_of_forall fun c hc => ?_
    rw [written, String.toList_append] at hc
    rcases List.mem_append.1 hc with hc | hc
    · exact isBlank_of_mem_ident h hc
    · obtain rfl := List.mem_singleton.1 hc
      decide
  | instruction i => exact Instruction.trimmed_written h

theorem written_ne_nil (s : Statement) : s.written.toList ≠ [] := by
  cases s with
  | label name => simp [written]
  | instruction i => exact i.written_ne_nil

/-- A statement is written in lower case if it was read in lower case. -/
theorem lowered_written {code : String} (hcode : Text.Lowered code.toList)
    (h : parse code = .ok (some s)) : Text.Lowered s.written.toList := by
  unfold parse at h
  dsimp only at h
  split at h
  · simp at h
  · next hcolon =>
    split at h
    · obtain rfl := Option.some.inj (Except.ok.inj h)
      rw [written, String.toList_append, String.toList_ofList]
      refine Text.Lowered.append (fun c hc => hcode c ?_) (by decide +kernel)
      exact Text.mem_of_mem_trim _ (List.dropLast_subset _ (Text.mem_of_mem_trim _ hc))
    · simp at h
  · split at h
    · next i hi =>
      obtain rfl := Option.some.inj (Except.ok.inj h)
      exact Instruction.lowered_written hcode hi
    · simp at h

/-- A statement that was read is read again from what it is written as. -/
theorem parse_written (h : s.Readable) : parse s.written = .ok (some s) := by
  have htrim := Text.trim_eq_self (trimmed_written h)
  unfold parse
  dsimp only
  rw [htrim]
  cases s with
  | label name =>
    have hlist : (written (.label name)).toList = name.toList ++ [':'] := by
      rw [written, String.toList_append]
      rfl
    have hname : Text.trim name.toList = name.toList :=
      Text.trim_eq_self (Text.trimmed_of_forall fun c hc => isBlank_of_mem_ident h hc)
    have hident : isIdentChars name.toList = true := h
    rw [hlist]
    simp only [List.getLast?_concat, List.dropLast_concat, hname, if_pos hident,
      String.ofList_toList]
  | instruction i =>
    split
    · next hnone => exact absurd (List.getLast?_eq_none_iff.1 hnone) (written_ne_nil _)
    · -- no instruction ends with the colon of a label
      next hcolon =>
      have hmem := List.mem_of_getLast? hcolon
      rcases Instruction.isOperandChar_of_mem_written h hmem with hc | hc | hc
      · exact absurd hc (by decide)
      · exact absurd hc (by decide)
      · exact absurd hc (by decide)
    · simp only [written, Instruction.parse_written h]

end Statement

end MacroAsm
