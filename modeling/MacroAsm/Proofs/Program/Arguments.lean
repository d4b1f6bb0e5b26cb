import MacroAsm.Program.Resolution

set_option autoImplicit false

/-! # Arguments of words

Which numbers may stand for an operand depends on its kind, the sizes of the machine and the number
of instructions. Operands resolve to such numbers only, as long as the tables of the scope hold
nothing else. -/

namespace MacroAsm

/-- Whether a number may stand for an operand in a program of `n` instructions. -/
def Operand.Fits (o : Options) (n : Nat) (v : UInt16) : Operand → Prop
  | .register _ | .pointer _ => v.toNat < o.registerCount
  | .variable _ | .address _ => v.toNat < o.memorySize
  | .number _ => v.toNat ≤ 255
  | .label _ => v.toNat ≤ n
  | .quoted _ => False

/-- Whether a number may stand where an operand is expected; it is zero where there is none. -/
def Instruction.ArgumentFits (o : Options) (n : Nat) (v : UInt16) : Option Operand → Prop
  | none => v = 0
  | some x => x.Fits o n v

/-- Whether a word may stand for an instruction. -/
structure Instruction.Fits (o : Options) (n : Nat) (i : Instruction) (w : RomWord) : Prop where
  op : w.op = i.op
  a : Instruction.ArgumentFits o n w.a i.operands[0]?
  b : Instruction.ArgumentFits o n w.b i.operands[1]?

/-- What the values of a scope depend on: its sizes are those of the machine, its labels stand for
    places in the program and its variables for places in memory. -/
structure Scope.Sound (o : Options) (n : Nat) (s : Scope) : Prop where
  registerCount : s.registerCount = o.registerCount
  memorySize : s.memorySize = o.memorySize
  label_le : ∀ {name slot}, s.labels.slot? name = some slot → slot.toNat ≤ n
  address_lt : ∀ {name a}, s.addresses.find? name = some a → a.toNat < o.memorySize

namespace Scope.Sound

variable {o : Options} {n : Nat} {s : Scope}

theorem registerValue_lt (hs : s.Sound o n) {r : Register} {v : UInt16}
    (h : s.registerValue r = .ok v) : v.toNat < o.registerCount := by
  unfold registerValue at h
  split at h
  · next hr =>
    obtain rfl := Except.ok.inj h
    have hindex : (UInt16.ofNat r.index.val).toNat = r.index.val := by
      rw [UInt16.toNat_ofNat']
      omega
    rw [hindex, ← hs.registerCount]
    exact hr
  · simp at h

/-- Memory is small enough that no address loses digits when it becomes a word. -/
theorem value_fits (hs : s.Sound o n) (ho : o.Valid) {x : Operand} {v : UInt16}
    (h : s.value x = .ok v) : x.Fits o n v := by
  cases x with
  | register r => exact hs.registerValue_lt h
  | pointer r => exact hs.registerValue_lt h
  | «variable» name =>
    simp only [value] at h
    split at h
    · next a ha =>
      obtain rfl := Except.ok.inj h
      exact hs.address_lt ha
    · simp at h
  | address a =>
    simp only [value] at h
    split at h
    · next ha =>
      obtain rfl := Except.ok.inj h
      have hsize := ho.memorySize.2
      rw [hs.memorySize] at ha
      simp only [Operand.Fits, UInt16.toNat_ofNat']
      omega
    · simp at h
  | number k =>
    simp only [value] at h
    split at h
    · obtain rfl := Except.ok.inj h
      simp only [Operand.Fits, UInt16.toNat_ofNat']
      omega
    · simp at h
  | label name =>
    simp only [value] at h
    split at h
    · next slot hslot =>
      obtain rfl := Except.ok.inj h
      exact hs.label_le hslot
    · simp at h
  | quoted t => simp [value] at h

theorem argument_fits (hs : s.Sound o n) (ho : o.Valid) {x : Option Operand} {v : UInt16}
    (h : Instruction.argument s.value x = .ok v) : Instruction.ArgumentFits o n v x := by
  cases x with
  | none => exact (Except.ok.inj h).symm
  | some x => exact hs.value_fits ho h

/-- An instruction resolves to a word that may stand for it. -/
theorem resolve_fits (hs : s.Sound o n) (ho : o.Valid) {i : Instruction} {w : RomWord}
    (h : i.resolve s.value = .ok w) : i.Fits o n w := by
  unfold Instruction.resolve at h
  split at h
  · simp at h
  · next a ha =>
    split at h
    · simp at h
    · next b hb =>
      obtain rfl := Except.ok.inj h
      exact ⟨rfl, hs.argument_fits ho ha, hs.argument_fits ho hb⟩

end Scope.Sound

end MacroAsm
