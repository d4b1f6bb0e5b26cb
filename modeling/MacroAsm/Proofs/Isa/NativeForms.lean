import MacroAsm.Proofs.Isa.Instructions

set_option autoImplicit false

/-! # The native form of a line

A line can be read exactly if some native form accepts it, and then no other native form does:
mnemonic and operand kinds, by which a line is accepted, tell the native forms apart
(`Form.filter_native`). So the order in which the forms are tried does not matter, and what was read
can be written and read again (`Instruction.read_back`). -/

namespace MacroAsm

namespace Form

/-- A form accepts a line that has its mnemonic, and operands of its kinds. -/
theorem acceptsText_iff {f : Form} {s : String} : f.acceptsText s = true ↔
    ∃ operands, (splitInstruction s).2.mapM Operand.parse = .ok operands ∧
      f.mnemonic = (splitInstruction s).1 ∧ f.kinds = operands.map Operand.kind := by
  unfold acceptsText
  generalize splitInstruction s = parts
  obtain ⟨mnemonic, args⟩ := parts
  cases hargs : args.mapM Operand.parse with
  | error e => simp [hargs]
  | ok operands => simp [hargs, accepts]

/-- Mnemonic and kinds tell a native form apart from all others. -/
theorem filter_native : ∀ f ∈ native,
    native.filter (fun g => g.mnemonic == f.mnemonic && g.kinds == f.kinds) = [f] := by
  decide

theorem mnemonic_ne_empty : ∀ f ∈ native, f.mnemonic ≠ "" := by
  decide

end Form

namespace Instruction

variable {s : String} {i : Instruction}

/-- A line is read with the operands that are read off it. -/
theorem mapM_of_parse (h : parse s = .ok i) :
    (splitInstruction s).2.mapM Operand.parse = .ok i.operands :=
  mapM_eq_ok_iff.2 (of_parse h).2.2

/-- The form of an instruction is the only one that accepts the line that it was read from. -/
theorem filter_acceptsText (h : parse s = .ok i) :
    Form.native.filter (fun f => f.acceptsText s) = [.ofOp i.op (i.operands.map Operand.kind)] := by
  obtain ⟨hnative, hmnemonic, -⟩ := of_parse h
  rw [← Form.filter_native _ hnative.form]
  refine List.filter_congr fun f _ => ?_
  rw [Bool.eq_iff_iff, Form.acceptsText_iff, mapM_of_parse h, hmnemonic]
  simp [Form.ofOp]

/-- A line can be read exactly if some native form accepts it. -/
theorem exists_parse_iff : (∃ i, parse s = .ok i) ↔ ∃ f ∈ Form.native, f.acceptsText s = true := by
  constructor
  · rintro ⟨i, hi⟩
    have hmem : Form.ofOp i.op (i.operands.map Operand.kind) ∈
        Form.native.filter (fun f => f.acceptsText s) := by
      rw [filter_acceptsText hi]
      exact List.mem_cons_self
    exact ⟨_, List.mem_filter.1 hmem⟩
  · rintro ⟨f, hf, haccepts⟩
    obtain ⟨operands, hoperands, hmnemonic, hkinds⟩ := Form.acceptsText_iff.1 haccepts
    have hne := Form.mnemonic_ne_empty f hf
    rw [hmnemonic] at hne
    have hsome : (Form.native.find? fun g => g.accepts (splitInstruction s).1 operands).isSome :=
      List.find?_isSome.2 ⟨f, hf, by simp [Form.accepts, hmnemonic, hkinds]⟩
    obtain ⟨g, hg⟩ := Option.isSome_iff_exists.1 hsome
    refine ⟨⟨g.op, operands⟩, ?_⟩
    simp only [parse, hoperands, hg]
    simp [hne]

theorem exists_error_iff :
    (∃ e, parse s = .error e) ↔ ∀ f ∈ Form.native, f.acceptsText s = false := by
  have hread : (∃ e, parse s = .error e) ↔ ¬ ∃ i, parse s = .ok i := by
    cases parse s <;> simp
  rw [hread, exists_parse_iff]
  simp

/-- **Reading and writing are inverse.** An operand that was read is read again from what it is
    written as, and so is an instruction. Of the native forms exactly one accepts the line of the
    instruction, and it is a form of its operation; the lines that none accepts are those that are
    not read. -/
theorem read_back (s : String) :
    (∀ x, Operand.parse s = .ok x → Operand.parse x.written = .ok x) ∧
    (∀ i, parse s = .ok i →
      (∃ f, Form.native.filter (fun g => g.acceptsText s) = [f] ∧ f.op = i.op) ∧
        parse i.written = .ok i) ∧
    ((∃ e, parse s = .error e) ↔ ∀ f ∈ Form.native, f.acceptsText s = false) := by
  refine ⟨fun x hx => ?_, fun i hi => ⟨⟨_, filter_acceptsText hi, rfl⟩, ?_⟩, exists_error_iff⟩
  · exact Operand.parse_written (Operand.readable_of_parse hx)
  · exact parse_written (of_parse hi).1

theorem read_back_store :
    parse "mov $-0x10 ,\t&r3" = .ok ⟨.st, [.address (-16), .register ⟨3⟩]⟩ ∧
      (∃ f, Form.native.filter (fun g => g.acceptsText "mov $-0x10 ,\t&r3") = [f] ∧ f.op = .st) ∧
      written ⟨.st, [.address (-16), .register ⟨3⟩]⟩ = "mov $-16, &r3" ∧
      parse "mov $-16, &r3" = .ok ⟨.st, [.address (-16), .register ⟨3⟩]⟩ ∧
      Operand.parse "0b11" = .ok (.number 3) ∧ Operand.parse "3" = .ok (.number 3) ∧
      ∃ e, parse "mov $-0x10, $3" = .error e := by
  have hread : parse "mov $-0x10 ,\t&r3" = .ok ⟨.st, [.address (-16), .register ⟨3⟩]⟩ := by
    rfl
  have hwritten : written ⟨.st, [.address (-16), .register ⟨3⟩]⟩ = "mov $-16, &r3" := by
    decide +kernel
  have hnumber : Operand.parse "0b11" = .ok (.number 3) := by
    rfl
  have hnone : ∀ f ∈ Form.native, f.acceptsText "mov $-0x10, $3" = false := by
    decide +kernel
  obtain ⟨hform, hback⟩ := (read_back _).2.1 _ hread
  exact ⟨hread, hform, hwritten, hwritten ▸ hback, hnumber, (read_back _).1 _ hnumber,
    (read_back _).2.2.2 hnone⟩

end Instruction

end MacroAsm
