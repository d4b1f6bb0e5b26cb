import MacroAsm.Proofs.Compilation.Instructions
import MacroAsm.Proofs.Program.Admission

set_option autoImplicit false

/-! # Native lines

A native line is an instruction without names: a variable is written as its address and a label as its
slot. What it says can be read off it (`NativeLine`), and that is the word of the instruction and no
other (`NativeLine.carries_native`). A number is the slot of a label where instructions of its mnemonic
jump or call, and a value everywhere else. -/

namespace MacroAsm

/-! ## Reading a line -/

/-- Whether the instructions of a mnemonic go to the place that some operand of theirs names. -/
def isTarget (mnemonic : String) (n : Nat) : Bool :=
  Form.native.any fun f => f.mnemonic == mnemonic && f.kinds[n]? == some .label

namespace Operand

/-- The kind of an operand in some place of a native line. -/
def kindAt (mnemonic : String) (n : Nat) (x : Operand) : OperandKind :=
  if x.kind = .number ∧ isTarget mnemonic n = true then .label else x.kind

/-- The number that an operand in some place of a native line stands for. -/
def numberAt (mnemonic : String) (n : Nat) : Operand → Option Int
  | .register r | .pointer r => some r.index.val
  | .address a => some a
  | .number k => some (if isTarget mnemonic n = true then k else k % 256)
  | .variable _ | .label _ | .quoted _ => none

end Operand

/-- A native line with what is read off it: the operands, and the only form that has its mnemonic and
    their kinds. -/
structure NativeLine (line : String) where
  operands : List Operand
  form : Form
  parsed : (splitInstruction line).2.mapM Operand.parse = .ok operands
  selected : Form.native.filter (fun f => f.mnemonic == (splitInstruction line).1 &&
    f.kinds == operands.mapIdx (Operand.kindAt (splitInstruction line).1)) = [form]

namespace NativeLine

variable {line : String}

/-- The argument in some place of a line; it is zero where there is no operand. -/
def argument? (l : NativeLine line) (n : Nat) : Option Int :=
  match l.operands[n]? with
  | none => some 0
  | some x => x.numberAt (splitInstruction line).1 n

/-- Whether a line says a word. -/
structure Says (l : NativeLine line) (w : RomWord) : Prop where
  op : l.form.op = w.op
  a : l.argument? 0 = some (w.a.toNat : Int)
  b : l.argument? 1 = some (w.b.toNat : Int)

/-- Whether a line can be read and says a word. -/
def Carries (line : String) (w : RomWord) : Prop :=
  ∃ l : NativeLine line, l.Says w

/-- There is one way to read a line. -/
theorem eq_of_line (l l' : NativeLine line) : l = l' := by
  obtain ⟨operands, form, parsed, selected⟩ := l
  obtain ⟨operands', form', parsed', selected'⟩ := l'
  obtain rfl : operands = operands' := Except.ok.inj (parsed.symm.trans parsed')
  obtain rfl : form = form' := List.singleton_injective (selected.symm.trans selected')
  rfl

/-- A line says one word at most. -/
theorem Carries.unique {w w' : RomWord} (h : Carries line w) (h' : Carries line w') : w' = w := by
  obtain ⟨l, hl⟩ := h
  obtain ⟨l', hl'⟩ := h'
  obtain rfl := eq_of_line l l'
  have ha := hl'.a.symm.trans hl.a
  have hb := hl'.b.symm.trans hl.b
  obtain ⟨op, a, b⟩ := w
  obtain ⟨op', a', b'⟩ := w'
  obtain rfl : op' = op := hl'.op.symm.trans hl.op
  obtain rfl : a' = a := UInt16.toNat_inj.1 (Int.ofNat_inj.1 (Option.some.inj ha))
  obtain rfl : b' = b := UInt16.toNat_inj.1 (Int.ofNat_inj.1 (Option.some.inj hb))
  rfl

end NativeLine

/-! ## Operands without names -/

namespace Scope

/-- An operand with the value of a variable or label in place of its name. -/
def bound (s : Scope) (x : Operand) : Operand :=
  match x with
  | .variable name =>
    match s.addresses.find? name with
    | some a => .address a.toNat
    | none => x
  | .label name =>
    match s.labels.slot? name with
    | some slot => .number slot.toNat
    | none => x
  | _ => x

/-- An instruction with values in place of names. -/
def boundInstruction (s : Scope) (i : Instruction) : Instruction :=
  ⟨i.op, i.operands.map s.bound⟩

variable {s : Scope}

theorem written_bound (s : Scope) (x : Operand) : (s.bound x).written = s.written x := by
  cases x with
  | «variable» name =>
    simp only [bound, written]
    cases s.addresses.find? name <;> rfl
  | label name =>
    simp only [bound, written]
    cases s.labels.slot? name <;> rfl
  | _ => rfl

theorem native_eq_written (s : Scope) (i : Instruction) :
    s.native i = (s.boundInstruction i).written := by
  simp only [native, boundInstruction, Instruction.written, List.map_map, Function.comp_def,
    written_bound]

/-- Words are in the range of numerals. -/
theorem inRange_toNat (v : UInt16) : Numeral.InRange (v.toNat : Int) := by
  have hv := v.toNat_lt
  simp only [Numeral.InRange, Int.natAbs_natCast, Numeral.limit]
  omega

theorem readable_bound {x : Operand} (h : x.Readable) : (s.bound x).Readable := by
  cases x with
  | «variable» name =>
    simp only [bound]
    split
    · exact inRange_toNat _
    · exact h
  | label name =>
    simp only [bound]
    split
    · exact inRange_toNat _
    · exact h
  | _ => exact h

theorem kind_bound_ne_quoted {x : Operand} (h : x.kind ≠ .quoted) :
    (s.bound x).kind ≠ .quoted := by
  cases x with
  | «variable» name =>
    simp only [bound]
    split <;> simp [Operand.kind]
  | label name =>
    simp only [bound]
    split <;> simp [Operand.kind]
  | _ => exact h

end Scope

/-! ## The form of a line -/

namespace Form

/-- Instructions of the machine have labels where they jump or call, and nowhere else. -/
theorem isTarget_iff : ∀ f ∈ native, ∀ k ∈ f.kinds.zipIdx,
    (isTarget f.mnemonic k.2 = true ↔ k.1 = .label) := by
  decide +kernel

/-- Where an operation takes a variable it takes an address as well, in one form. -/
theorem filter_resolved : ∀ f ∈ native,
    native.filter (fun g => g.mnemonic == f.mnemonic &&
      g.kinds == f.kinds.map OperandKind.resolved) =
        [⟨f.op, f.mnemonic, f.kinds.map OperandKind.resolved⟩] := by
  decide +kernel

end Form

namespace Instruction

variable {s : Scope} {i : Instruction} {w : RomWord}

/-- A label is what an instruction of the machine goes to. -/
theorem Native.isTarget_iff (h : i.Native) {n : Nat} {x : Operand} (hx : i.operands[n]? = some x) :
    isTarget i.op.mnemonic n = true ↔ x.kind = .label := by
  refine Form.isTarget_iff _ h.form (x.kind, n) ?_
  rw [List.mem_zipIdx_iff_getElem?]
  simp [Form.ofOp, hx]

/-- An operand with a value has its number in the native line. -/
theorem Native.numberAt_bound (h : i.Native) {n : Nat} {x : Operand} {v : UInt16}
    (hx : i.operands[n]? = some x) (hv : x.StandsFor s v) :
    (s.bound x).numberAt i.op.mnemonic n = some (v.toNat : Int) ∧
      (s.bound x).kindAt i.op.mnemonic n = x.kind.resolved := by
  have htarget := h.isTarget_iff hx
  cases x with
  | register r => exact ⟨congrArg (fun k : Nat => some (k : Int)) hv.symm, rfl⟩
  | pointer r => exact ⟨congrArg (fun k : Nat => some (k : Int)) hv.symm, rfl⟩
  | «variable» name =>
    have hfind : s.addresses.find? name = some v := hv
    simp [Scope.bound, hfind, Operand.numberAt, Operand.kindAt, Operand.kind,
      OperandKind.resolved]
  | address a => exact ⟨congrArg some hv.symm, rfl⟩
  | number k =>
    have hfalse : isTarget i.op.mnemonic n = false := by
      simpa [Operand.kind] using htarget
    have hvalue : (v.toNat : Int) = k % 256 := hv
    simp [Scope.bound, Operand.numberAt, Operand.kindAt, hfalse, hvalue, Operand.kind,
      OperandKind.resolved]
  | label name =>
    have htrue : isTarget i.op.mnemonic n = true := htarget.2 rfl
    have hfind : s.labels.slot? name = some v := hv
    simp [Scope.bound, hfind, Operand.numberAt, Operand.kindAt, htrue, Operand.kind,
      OperandKind.resolved]
  | quoted t => exact absurd hv id

/-- The written operands of a native line are found again. -/
theorem Native.isArgument_bound (h : i.Native) {a : String}
    (ha : a ∈ (s.boundInstruction i).operands.map Operand.written) : IsArgument a := by
  obtain ⟨y, hy, rfl⟩ := List.mem_map.1 ha
  obtain ⟨x, hx, rfl⟩ := List.mem_map.1 hy
  have hreadable := Scope.readable_bound (s := s) (h.readable x hx)
  refine ⟨Operand.trimmed_written hreadable, fun hcomma => ?_, Operand.written_ne_nil hreadable⟩
  have hchar := Operand.isOperandChar_of_mem_written hreadable
    (Scope.kind_bound_ne_quoted (h.kind_ne_quoted hx)) hcomma
  exact absurd hchar (by decide)

end Instruction

/-! ## Lines of instructions -/

namespace Instruction

variable {s : Scope} {i : Instruction} {w : RomWord}

/-- The word of an instruction has a place for each of its operands. -/
theorem EncodedBy.exists_standsFor (hw : i.EncodedBy s w) (h : i.Native) {n : Nat} {x : Operand}
    (hx : i.operands[n]? = some x) : ∃ v, x.StandsFor s v := by
  have hlength := h.length_operands_le
  obtain ⟨hn, -⟩ := List.getElem?_eq_some_iff.1 hx
  have hplace : n = 0 ∨ n = 1 := by omega
  rcases hplace with rfl | rfl
  · have ha := hw.a
    rw [hx] at ha
    exact ⟨w.a, ha⟩
  · have hb := hw.b
    rw [hx] at hb
    exact ⟨w.b, hb⟩

theorem Native.splitInstruction_native (h : i.Native) : splitInstruction (s.native i) =
    (i.op.mnemonic, (s.boundInstruction i).operands.map Operand.written) := by
  rw [Scope.native_eq_written]
  exact splitInstruction_joinOperands (isMnemonic_mnemonic i.op) fun _ ha => h.isArgument_bound ha

theorem Native.mapIdx_kindAt (h : i.Native) (hw : i.EncodedBy s w) :
    (s.boundInstruction i).operands.mapIdx (Operand.kindAt i.op.mnemonic) =
      (i.operands.map Operand.kind).map OperandKind.resolved := by
  refine List.ext_getElem? fun n => ?_
  rw [List.getElem?_mapIdx, Scope.boundInstruction, List.getElem?_map, List.getElem?_map,
    List.getElem?_map]
  cases hx : i.operands[n]? with
  | none => rfl
  | some x =>
    obtain ⟨v, hv⟩ := hw.exists_standsFor h hx
    exact congrArg some (h.numberAt_bound hx hv).2

end Instruction

namespace NativeLine

variable {s : Scope} {i : Instruction} {w : RomWord}

/-- The native line of an instruction says its word. -/
theorem carries_native (h : i.Native) (hw : i.EncodedBy s w) : Carries (s.native i) w := by
  have hsplit := h.splitInstruction_native (s := s)
  have hparsed : (splitInstruction (s.native i)).2.mapM Operand.parse =
      .ok (s.boundInstruction i).operands := by
    rw [hsplit, mapM_eq_ok_iff, List.map_map]
    refine List.map_congr_left fun y hy => ?_
    obtain ⟨x, hx, rfl⟩ := List.mem_map.1 hy
    exact Operand.parse_written (Scope.readable_bound (h.readable x hx))
  have hselected : Form.native.filter (fun f => f.mnemonic == (splitInstruction (s.native i)).1 &&
      f.kinds == (s.boundInstruction i).operands.mapIdx
        (Operand.kindAt (splitInstruction (s.native i)).1)) =
      [⟨i.op, i.op.mnemonic, (i.operands.map Operand.kind).map OperandKind.resolved⟩] := by
    rw [hsplit, h.mapIdx_kindAt hw]
    exact Form.filter_resolved _ h.form
  have hargument {n : Nat} {v : UInt16}
      (hv : Instruction.ArgumentStandsFor s v i.operands[n]?) :
      argument? ⟨_, _, hparsed, hselected⟩ n = some (v.toNat : Int) := by
    simp only [argument?, Scope.boundInstruction, List.getElem?_map, hsplit]
    cases hx : i.operands[n]? with
    | none =>
      rw [hx] at hv
      obtain rfl : v = 0 := hv
      rfl
    | some x =>
      rw [hx] at hv
      exact (h.numberAt_bound hx hv).1
  exact ⟨⟨_, _, hparsed, hselected⟩, hw.op.symm, hargument hw.a, hargument hw.b⟩

end NativeLine

/-! ## Instructions without labels -/

/-- Whether an operation goes to a place that one of its operands names. -/
def Opcode.jumps : Opcode → Bool
  | .jmp | .jz | .jnz | .call => true
  | _ => false

namespace Form

theorem label_notMem_kinds : ∀ f ∈ native, f.op.jumps = false → OperandKind.label ∉ f.kinds := by
  decide +kernel

theorem ofOp_resolved_mem : ∀ f ∈ native,
    ofOp f.op (f.kinds.map OperandKind.resolved) ∈ native := by
  decide +kernel

end Form

namespace Scope

variable {s s' : Scope} {x : Operand}

/-- Only the names of variables and labels are replaced. -/
theorem kind_bound (hx : x.Admissible s) (hlabel : x.kind ≠ .label) :
    (s.bound x).kind = x.kind.resolved := by
  cases x with
  | «variable» name =>
    obtain ⟨a, ha⟩ := Option.isSome_iff_exists.1 hx
    simp only [bound, ha]
    rfl
  | label name => exact absurd rfl hlabel
  | _ => rfl

theorem lowered_written_bound (hx : x.Admissible s) (hlabel : x.kind ≠ .label) :
    Text.Lowered (s.bound x).written.toList := by
  cases x with
  | register r => exact Operand.lowered_register r
  | pointer r =>
    show Text.Lowered (Operand.written (.pointer r)).toList
    rw [Operand.toList_written_pointer]
    exact .cons (by decide) (Operand.lowered_register r)
  | «variable» name =>
    obtain ⟨a, ha⟩ := Option.isSome_iff_exists.1 hx
    simp only [bound, ha, Operand.toList_written_address]
    exact .cons (by decide) (Operand.lowered_toString _)
  | address a =>
    show Text.Lowered (Operand.written (.address a)).toList
    rw [Operand.toList_written_address]
    exact .cons (by decide) (Operand.lowered_toString a)
  | number n => exact Operand.lowered_toString n
  | label name => exact absurd rfl hlabel
  | quoted t => exact absurd hx id

/-- An operand without a name is written as itself. -/
theorem written_bound_of_admissible (hx : x.Admissible s) :
    s'.written (s.bound x) = s.written x := by
  cases x with
  | «variable» name =>
    obtain ⟨a, ha⟩ := Option.isSome_iff_exists.1 hx
    simp only [bound, written, ha]
    rfl
  | label name =>
    obtain ⟨slot, hslot⟩ := Option.isSome_iff_exists.1 hx
    simp only [bound, written, hslot]
    rfl
  | _ => rfl

/-- The address of a variable has the same value as the variable. -/
theorem value_bound (hregister : s'.registerCount = s.registerCount)
    (hmemory : s'.memorySize = s.memorySize)
    (haddress : ∀ {name a}, s.addresses.find? name = some a → a.toNat < s.memorySize)
    (hx : x.Admissible s) (hlabel : x.kind ≠ .label) : s'.value (s.bound x) = s.value x := by
  cases x with
  | «variable» name =>
    obtain ⟨a, ha⟩ := Option.isSome_iff_exists.1 hx
    have hlt := haddress ha
    have hin : (0 : Int) ≤ (a.toNat : Int) ∧ (a.toNat : Int) < s'.memorySize := by omega
    simp only [bound, value, ha, if_pos hin, Int.toNat_natCast, UInt16.ofNat_toNat]
  | label name => exact absurd rfl hlabel
  | _ => simp only [bound, value, registerValue, hregister, hmemory]

end Scope

namespace Instruction

variable {s s' : Scope} {i : Instruction}

theorem Native.kind_ne_label (h : i.Native) (hjumps : i.op.jumps = false) {x : Operand}
    (hx : x ∈ i.operands) : x.kind ≠ .label := by
  intro hlabel
  refine Form.label_notMem_kinds _ h.form hjumps ?_
  rw [← hlabel]
  exact List.mem_map_of_mem hx

section NoLabel

variable (h : i.Native) (hadmissible : i.Admissible s) (hjumps : i.op.jumps = false)

include h hadmissible hjumps

/-- Without its names an instruction is one of the machine as well. -/
theorem Native.boundInstruction : (s.boundInstruction i).Native := by
  constructor
  · have hkinds : (s.boundInstruction i).operands.map Operand.kind =
        (i.operands.map Operand.kind).map OperandKind.resolved := by
      rw [Scope.boundInstruction, List.map_map, List.map_map]
      exact List.map_congr_left fun x hx =>
        Scope.kind_bound (hadmissible x hx) (h.kind_ne_label hjumps hx)
    rw [hkinds]
    exact Form.ofOp_resolved_mem _ h.form
  · intro y hy
    obtain ⟨x, hx, rfl⟩ := List.mem_map.1 hy
    exact Scope.readable_bound (h.readable x hx)

theorem Native.lowered_boundInstruction :
    Text.Lowered (s.boundInstruction i).written.toList := by
  intro c hc
  rcases mem_written hc with hc | rfl | rfl | ⟨y, hy, hc⟩
  · exact lowered_mnemonic i.op c hc
  · decide
  · decide
  · obtain ⟨x, hx, rfl⟩ := List.mem_map.1 hy
    exact Scope.lowered_written_bound (hadmissible x hx) (h.kind_ne_label hjumps hx) c hc

/-- An instruction is encoded in the same way without its names. -/
theorem Native.resolve_boundInstruction (hregister : s'.registerCount = s.registerCount)
    (hmemory : s'.memorySize = s.memorySize)
    (haddress : ∀ {name a}, s.addresses.find? name = some a → a.toNat < s.memorySize) :
    (s.boundInstruction i).resolve s'.value = i.resolve s.value := by
  have hargument (n : Nat) : argument s'.value (s.boundInstruction i).operands[n]? =
      argument s.value i.operands[n]? := by
    rw [Scope.boundInstruction, List.getElem?_map]
    cases hx : i.operands[n]? with
    | none => rfl
    | some x =>
      have hmem := List.mem_of_getElem? hx
      exact Scope.value_bound hregister hmemory haddress (hadmissible x hmem)
        (h.kind_ne_label hjumps hmem)
  simp only [resolve, hargument]
  rfl

end NoLabel

theorem native_boundInstruction (hadmissible : i.Admissible s) :
    s'.native (s.boundInstruction i) = s.native i := by
  have hwritten : (s.boundInstruction i).operands.map s'.written = i.operands.map s.written := by
    rw [Scope.boundInstruction, List.map_map]
    exact List.map_congr_left fun x hx => Scope.written_bound_of_admissible (hadmissible x hx)
  rw [Scope.native, Scope.native, hwritten]
  rfl

/-- An instruction without labels uses no variables when its names are replaced. -/
theorem variables_boundInstruction (hadmissible : i.Admissible s) :
    (Statement.instruction (s.boundInstruction i)).variables = [] := by
  refine List.filterMap_eq_nil_iff.2 fun y hy => ?_
  obtain ⟨x, hx, rfl⟩ := List.mem_map.1 hy
  have hadm := hadmissible x hx
  cases x with
  | «variable» name =>
    obtain ⟨a, ha⟩ := Option.isSome_iff_exists.1 hadm
    simp only [Scope.bound, ha]
    rfl
  | label name =>
    obtain ⟨slot, hslot⟩ := Option.isSome_iff_exists.1 hadm
    simp only [Scope.bound, hslot]
    rfl
  | _ => rfl

end Instruction

end MacroAsm
