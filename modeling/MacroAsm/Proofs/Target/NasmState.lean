import MacroAsm.Proofs.Isa.Machine
import MacroAsm.Proofs.X86.Reading
import MacroAsm.Target.CFamily

set_option autoImplicit false

/-! # The machine in the processor's memory

The output for an assembler keeps the bytes of the machine in three arrays of its own and the stack
pointer in `r12` (`Nasm.Holds`). A write into one of the arrays is a write to the machine, and neither
other writes into the program's data nor the processor's own stack interfere. -/

namespace MacroAsm

variable {o : Options}

/-! ## Banks -/

open CFamily (Bank)

/-- The number of bytes in a bank. -/
def Options.bankSize (o : Options) : Bank → Nat
  | .registers => o.registerCount
  | .memory => o.memorySize
  | .stack => o.stackSize

theorem Options.Valid.bankSize_le (ho : o.Valid) (b : Bank) : o.bankSize b ≤ 65536 := by
  cases b with
  | registers => exact Nat.le_trans ho.registerCount.2 (by decide)
  | memory => exact ho.memorySize.2
  | stack => exact ho.stackSize.2

namespace Bytes

/-- A byte of a bank. -/
def byte (m : Bytes o) (i : Nat) : Bank → UInt8
  | .registers => m.registers[i]?.getD 0
  | .memory => m.memory[i]?.getD 0
  | .stack => m.stack[i]?.getD 0

/-- Put a byte into a bank. -/
def put (m : Bytes o) (i : Nat) (v : UInt8) : Bank → Bytes o
  | .registers => { m with registers := m.registers.setIfInBounds i v }
  | .memory => { m with memory := m.memory.setIfInBounds i v }
  | .stack => { m with stack := m.stack.setIfInBounds i v }

theorem byte_put_self {m : Bytes o} {i : Nat} {b : Bank} (hi : i < o.bankSize b) (v : UInt8) :
    (m.put i v b).byte i b = v := by
  have hset {n : Nat} (bytes : Vector UInt8 n) (h : i < n) :
      (bytes.setIfInBounds i v)[i]?.getD 0 = v := by
    simp [h]
  cases b with
  | registers => exact hset _ hi
  | memory => exact hset _ hi
  | stack => exact hset _ hi

theorem byte_put_of_ne {m : Bytes o} {i j : Nat} {b c : Bank} (h : c ≠ b ∨ j ≠ i) (v : UInt8) :
    (m.put i v b).byte j c = m.byte j c := by
  have hset {n : Nat} (bytes : Vector UInt8 n) (hji : j ≠ i) :
      (bytes.setIfInBounds i v)[j]?.getD 0 = bytes[j]?.getD 0 := by
    rw [Vector.getElem?_setIfInBounds_ne hji.symm]
  by_cases hbc : c = b
  · subst hbc
    have hji : j ≠ i := h.resolve_left (by simp)
    cases c with
    | registers => exact hset _ hji
    | memory => exact hset _ hji
    | stack => exact hset _ hji
  · cases b <;> cases c <;> first | rfl | exact absurd rfl hbc

end Bytes

namespace Nasm

open Assembly X86

/-- The names of the program's data. -/
def dataNames : List String :=
  ["registers", "memory", "stack", "out_fmt", "rom_table"]

theorem mem_dataNames (b : Bank) : b.written ∈ dataNames := by
  cases b <;> decide

theorem written_bank_inj {b c : Bank} (h : b.written = c.written) : b = c := by
  cases b <;> cases c <;> first | rfl | exact absurd h (by decide)

/-- The data of a program for `n` instructions, as they are found in memory. -/
structure Placed (im : Image) (es : List Element) (stack : Region) (o : Options) (n : Nat) :
    Prop where
  label : ∀ {x : String}, x ∈ dataNames → .label x ∈ es
  /-- The arrays have the sizes of the options. -/
  extent : ∀ b : Bank, im.extent (after es b.written) = o.bankSize b
  memorySize : im.symbol "MEMORY_SIZE" = BitVec.ofNat 64 o.memorySize
  stackSize : im.symbol "STACK_SIZE" = BitVec.ofNat 64 o.stackSize
  romSize : im.symbol "ROM_SIZE" = BitVec.ofNat 64 n
  /-- The text for `printf` is as in the template. -/
  format : ∀ {m : Memory}, im.Holding m (after es "out_fmt") (im.symbol "out_fmt") →
    ∀ (i : Nat) (h : i < 4), m (offset (im.symbol "out_fmt") i) = [37, 100, 10, 0][i]
  /-- The table leads to the instructions. -/
  table : ∀ {m : Memory}, im.Holding m (after es "rom_table") (im.symbol "rom_table") →
    ∀ k < n, load m (offset (im.symbol "rom_table") (8 * k)) 8 =
      (im.symbol (Label.slot k).written).toNat
  apart : ∀ {x y : String}, x ∈ dataNames → y ∈ dataNames → x ≠ y →
    (im.object es x).Apart (im.object es y)
  stack : ∀ {x : String}, x ∈ dataNames → (im.object es x).Apart stack

/-- The processor's own stack has room below and nothing above what it holds. -/
def Room (stack : Region) (s : X86.State) (n : Nat) : Prop :=
  n ≤ distance stack.base (s.regs .rsp) ∧ distance stack.base (s.regs .rsp) ≤ stack.size

/-- The bytes of the machine are in the arrays, and what the program reads besides is there. -/
structure HoldsBytes (im : Image) (es : List Element) (mem : Memory) (m : Bytes o) : Prop where
  bank : ∀ (b : Bank) (i : Nat), i < o.bankSize b →
    mem (offset (im.symbol b.written) i) = m.byte i b
  format : im.Holding mem (after es "out_fmt") (im.symbol "out_fmt")
  table : im.Holding mem (after es "rom_table") (im.symbol "rom_table")

/-- The processor holds a machine: its bytes, its stack pointer, and what was printed. -/
structure Holds (im : Image) (es : List Element) (s : X86.State) (m : Machine o) : Prop
    extends HoldsBytes im es s.mem m.toBytes where
  sp : s.regs .r12 = BitVec.ofNat 64 m.sp
  output : s.output = m.output

section Placed

variable {im : Image} {es : List Element} {stack : Region} {n : Nat}
variable {mem mem' : Memory} {m : Bytes o}

/-- Only the program's data are of account. -/
theorem HoldsBytes.congr (hp : Placed im es stack o n) (h : HoldsBytes im es mem m)
    (heq : ∀ x ∈ dataNames, ∀ i < im.extent (after es x),
      mem' (offset (im.symbol x) i) = mem (offset (im.symbol x) i)) : HoldsBytes im es mem' m where
  bank := fun b i hi =>
    (heq _ (mem_dataNames b) i (by rwa [hp.extent])).trans (h.bank b i hi)
  format := h.format.congr (heq _ (by decide))
  table := h.table.congr (heq _ (by decide))

/-- Places in different data are different. -/
theorem Placed.offset_ne (hp : Placed im es stack o n) {x y : String} (hx : x ∈ dataNames)
    (hy : y ∈ dataNames) (hxy : x ≠ y) {i j : Nat} (hi : i < im.extent (after es x))
    (hj : j < im.extent (after es y)) : offset (im.symbol x) i ≠ offset (im.symbol y) j := by
  intro heq
  have hhas : (im.object es x).Has (offset (im.symbol x) i) :=
    Region.has_offset (r := im.object es x) hi
  refine hp.apart hx hy hxy _ hhas ?_
  rw [heq]
  exact Region.has_offset (r := im.object es y) hj

/-- A write into a bank. -/
theorem HoldsBytes.put (hp : Placed im es stack o n) (ho : o.Valid) (h : HoldsBytes im es mem m)
    {b : Bank} {i : Nat} (hi : i < o.bankSize b) (v : Nat) :
    HoldsBytes im es (store mem (offset (im.symbol b.written) i) 1 v)
      (m.put i (UInt8.ofNat v) b) := by
  have hextent : i < im.extent (after es b.written) := by rwa [hp.extent]
  have hother {x : String} (hx : x ∈ dataNames) (hne : x ≠ b.written) :
      ∀ j < im.extent (after es x), store mem (offset (im.symbol b.written) i) 1 v
        (offset (im.symbol x) j) = mem (offset (im.symbol x) j) := fun j hj =>
    store_one_of_ne (hp.offset_ne hx (mem_dataNames b) hne hj hextent) v
  refine ⟨?_, h.format.congr (hother (by decide) (by cases b <;> decide)),
    h.table.congr (hother (by decide) (by cases b <;> decide))⟩
  intro c j hj
  by_cases hbc : c = b
  · subst hbc
    by_cases hji : j = i
    · subst hji
      rw [store_one_self, Bytes.byte_put_self hi]
    · have hbounds := ho.bankSize_le c
      have hne : offset (im.symbol c.written) j ≠ offset (im.symbol c.written) i := fun heq =>
        hji (offset_inj (by omega) (by omega) heq)
      rw [store_one_of_ne hne, Bytes.byte_put_of_ne (.inr hji), h.bank c j hj]
  · have hne : c.written ≠ b.written := fun heq => hbc (written_bank_inj heq)
    rw [hother (mem_dataNames c) hne j (by rwa [hp.extent]), Bytes.byte_put_of_ne (.inl hbc),
      h.bank c j hj]

/-! ## The processor's own stack -/

/-- A routine keeps the stack as it finds it, and what `rbx` holds. -/
structure Keeps (stack : Region) (s t : X86.State) : Prop where
  rsp : t.regs .rsp = s.regs .rsp
  rbx : t.regs .rbx = s.regs .rbx
  mem : ∀ a, stack.Has a → distance stack.base (s.regs .rsp) ≤ distance stack.base a →
    t.mem a = s.mem a

theorem Keeps.of_mem {s t : X86.State} (hmem : t.mem = s.mem)
    (hrsp : t.regs .rsp = s.regs .rsp) (hrbx : t.regs .rbx = s.regs .rbx) : Keeps stack s t :=
  ⟨hrsp, hrbx, fun _ _ _ => by rw [hmem]⟩

theorem Keeps.trans {s t u : X86.State} (h : Keeps stack s t) (h' : Keeps stack t u) :
    Keeps stack s u where
  rsp := h'.rsp.trans h.rsp
  rbx := h'.rbx.trans h.rbx
  mem := fun a ha hle => (h'.mem a ha (h.rsp ▸ hle)).trans (h.mem a ha hle)

/-- A write into a bank is none on the stack. -/
theorem Placed.store_eq (hp : Placed im es stack o n) {b : Bank} {i : Nat} (hi : i < o.bankSize b)
    (v : Nat) {a : Word} (ha : stack.Has a) :
    store mem (offset (im.symbol b.written) i) 1 v a = mem a := by
  refine store_one_of_ne ?_ v
  rintro rfl
  have hhas : (im.object es b.written).Has (offset (im.symbol b.written) i) :=
    Region.has_offset (r := im.object es b.written) (by rwa [Image.object, hp.extent])
  exact hp.stack (mem_dataNames b) _ hhas ha

theorem Room.mono {s s' : X86.State} {k l : Nat} (h : Room stack s k)
    (hrsp : s'.regs .rsp = s.regs .rsp) (hl : l ≤ k) : Room stack s' l := by
  rw [Room, hrsp]
  exact ⟨Nat.le_trans hl h.1, h.2⟩

theorem distance_push {s : X86.State} {k : Nat} (h : Room stack s (k + 8)) (x : Word) :
    distance stack.base ((s.push x).regs .rsp) = distance stack.base (s.regs .rsp) - 8 := by
  have hroom := h.1
  rw [State.rsp_push]
  simp only [distance] at hroom ⊢
  bv_omega

theorem Room.push {s : X86.State} {k : Nat} (h : Room stack s (k + 8)) (x : Word) :
    Room stack (s.push x) k := by
  rw [Room, distance_push h]
  exact ⟨Nat.le_sub_of_add_le h.1, Nat.le_trans (Nat.sub_le _ 8) h.2⟩

/-- What is pushed lies on the stack, behind what is left of the room. -/
theorem Room.has_push {s : X86.State} {k : Nat} (h : Room stack s (k + 8)) {a : Word}
    (ha : distance (s.regs .rsp - 8) a < 8) :
    distance stack.base (s.regs .rsp) - 8 ≤ distance stack.base a ∧ stack.Has a := by
  obtain ⟨hroom, hsize⟩ := h
  simp only [Region.Has, distance] at hroom hsize ha ⊢
  constructor <;> bv_omega

/-- Pushes leave the program's data alone. -/
theorem Holds.pushed (hp : Placed im es stack o n) {s : X86.State} {m : Machine o}
    (h : Holds im es s m) {k : Nat} (hroom : Room stack s (k + 8)) (x : Word) :
    Holds im es (s.push x) m := by
  have hbytes : HoldsBytes im es (s.push x).mem m.toBytes := by
    refine h.toHoldsBytes.congr hp fun y hy i hi => ?_
    refine store_of_le (Nat.le_of_not_lt fun hlt => ?_) _
    have hhas : (im.object es y).Has (offset (im.symbol y) i) :=
      Region.has_offset (r := im.object es y) hi
    exact hp.stack hy _ hhas (hroom.has_push hlt).2
  exact ⟨hbytes, (State.regs_push_of_ne s (by decide) x).trans h.sp, h.output⟩

/-- What was pushed is on top when the stack was kept. -/
theorem top_push {s t : X86.State} {k : Nat} (hroom : Room stack s (k + 8)) (x : Word)
    (h : Keeps stack (s.push x) t) : t.top = x := by
  have hload : load t.mem (s.regs .rsp - 8) 8 = load (s.push x).mem (s.regs .rsp - 8) 8 := by
    refine load_congr fun i hi => ?_
    have hhas := hroom.has_push (a := offset (s.regs .rsp - 8) i)
      (by rwa [distance_offset _ (by omega)])
    exact h.mem _ hhas.2 (by rw [distance_push hroom]; exact hhas.1)
  have hself : load (s.push x).mem (s.regs .rsp - 8) 8 = x.toNat :=
    load_store_self (by decide) x.isLt
  rw [State.top, h.rsp, State.rsp_push, hload, hself, BitVec.ofNat_toNat, BitVec.setWidth_eq]

end Placed

end Nasm

end MacroAsm
