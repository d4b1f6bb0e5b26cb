import MacroAsm.Proofs.Compilation.Instructions
import MacroAsm.Proofs.Target.NasmRoutines

set_option autoImplicit false

/-! # The code of an encoded instruction

Wherever the code of an encoded instruction stands, it does to the machine what the instruction does,
and goes on where the machine goes on (`Nasm.follows`): behind itself, at the code of another
instruction, or at the end. -/

namespace MacroAsm

variable {o : Options}

namespace Nasm

open Assembly X86

/-! ## Where the code goes on -/

/-- The label of the code at which the machine goes on behind a word. -/
def goal (w : RomWord) (pc n : Nat) : Label :=
  if w.op = .hlt then .finish else target pc n

/-- Behind the code of a word the processor is at what follows it, if that is where the machine goes
    on, or else at the label. -/
inductive Reaches (im : Image) (scope : String) (rest : List Element) (w : RomWord) (next n pc : Nat) :
    Word → Prop where
  | behind {b : Word} : im.Laid scope rest b → w.op ≠ .hlt → pc = next →
    Reaches im scope rest w next n pc b
  | label : Reaches im scope rest w next n pc (im.symbol (goal w pc n).written)

section Steps

variable {im : Image} {es rest : List Element} {stack : Region} {n k : Nat} {scope : String}
variable {s : X86.State} {m m' : Machine o} {a : Word}

/-- Only the bytes, the stack pointer and the output are held. -/
theorem Holds.goes (h : Holds im es s m) (pc : Nat) (running : Bool) :
    Holds im es s { m with pc, running } :=
  ⟨h.toHoldsBytes, h.sp, h.output⟩

/-- The code of a word does what the word does, and goes on where the machine goes on. -/
def Follows (im : Image) (es : List Element) (stack : Region) (n k : Nat) (w : RomWord)
    (m : Machine o) : Prop :=
  ∀ (scope : String) (rest : List Element) (a : Word) (s : X86.State),
    im.Laid scope ((instrs w k n).map Instr.element ++ rest) a → Holds im es s m →
    Room stack s 32 → ∃ b s', im.Runs (a, s) (b, s') ∧ Holds im es s' (m.execute w) ∧
      s'.regs .rsp = s.regs .rsp ∧ Reaches im scope rest w (k + 1) n (m.execute w).pc b

/-- A word whose code runs through to what follows it. -/
theorem follows_of_does {w : RomWord} (h : Does im es stack (instrs w k n) m (m.execute w))
    (hop : w.op ≠ .hlt) (hpc : (m.execute w).pc = k + 1) : Follows im es stack n k w m := by
  intro scope rest a s hlaid hholds hroom
  obtain ⟨b, s', hruns, hlaid', hholds', hrsp⟩ := h scope rest a s hlaid hholds hroom
  exact ⟨b, s', hruns, hholds', hrsp, .behind hlaid' hop hpc⟩

section

variable (hp : Placed im es stack o n) (ho : o.Valid) (hc : Coded im)

include hp ho hc

/-- A byte is brought to `al` and pushed. -/
theorem does_pushByte {value : Arg} {v : UInt8} (hsp : m.sp < o.stackSize)
    (hread : ofOperandPair "mov" (.reg .rax .byte) value.x86 =
      some (.op (.binary .mov .byte (.reg .rax .byte) value.x86)))
    (hvalue : ∀ s, Holds im es s m → value.x86.value im.symbol s .byte = v.toNat) :
    Does im es stack (pushByte value) m (m.push v) := by
  intro scope rest a s hlaid h hroom
  have hread' : elementInstr? scope (Instr.binary .mov (.reg .al) value).element =
      some (.op (.binary .mov .byte (.reg .rax .byte) value.x86)) := read_binary hread
  obtain ⟨b, hmov, hlaid⟩ := hlaid.next hread'
  obtain ⟨c, hcall, hlaid⟩ := hlaid.next (read_call .push)
  let brought := s.set .rax .byte v.toNat
  have hbrought : (Op.binary .mov .byte (.reg .rax .byte) value.x86).exec im.symbol s =
      some brought := by
    rw [Op.exec, hvalue s h]
    rfl
  have hal : brought.get .rax .byte = v.toNat :=
    (State.get_set_self ..).trans (Nat.mod_eq_of_lt v.toNat_lt)
  have hroom' : Room stack brought (24 + 8) := hroom.mono rfl (Nat.le_refl _)
  obtain ⟨t, hruns, hholds, -, hrsp, -⟩ := runs_routine hp hcall hroom'
    (h.set (by decide) _ _) (Q := fun _ => True) fun u hu _ hrax _ => by
      obtain ⟨b, c, t, hruns, hret, hkeeps, hholds⟩ := runs_push hp ho hc hu hsp
      rw [hrax, hal, UInt8.ofNat_toNat] at hholds
      exact ⟨b, c, t, hruns, hret, hkeeps, hholds, trivial⟩
  exact ⟨c, t.drop, (Image.runs_op hmov hbrought).trans hruns, hlaid, hholds, hrsp⟩

/-- A call of the routine that pops. -/
theorem runs_callPop (hsp : m.sp < o.stackSize) {next : Word}
    (hcall : im.Code [.call "mccpu_pop"] a next) (h : Holds im es s m) (hroom : Room stack s 32) :
    ∃ t, im.Runs (a, s) (next, t) ∧ Holds im es t m.lower ∧ t.get .rax .byte = m.top.toNat ∧
      t.regs .rsp = s.regs .rsp ∧ t.regs .rbx = s.regs .rbx := by
  obtain ⟨t, hruns, hholds, hrax, hrsp, hrbx⟩ := runs_routine hp hcall (k := 24) hroom h
    (Q := fun t => t.get .rax .byte = m.top.toNat) fun u hu _ _ _ => runs_pop hp ho hc hu hsp
  exact ⟨t.drop, hruns, hholds, hrax, hrsp, hrbx⟩

/-- A byte is popped into a register. -/
theorem does_pop {i : UInt16} (hi : i.toNat < o.registerCount) (hsp : m.sp < o.stackSize) :
    Does im es stack [.call .pop, .binary .mov (reg i) (.reg .al)] m (m.lower.setReg i m.top) := by
  intro scope rest a s hlaid h hroom
  obtain ⟨b, hcall, hlaid⟩ := hlaid.next (read_call .pop)
  have hread : elementInstr? scope (Instr.binary .mov (reg i) (.reg .al)).element =
      some (.op (.binary .mov .byte (.mem none (Cell.register i.toNat).terms)
        (.reg .rax .byte))) := read_binary rfl
  obtain ⟨c, hmov, hlaid⟩ := hlaid.next hread
  obtain ⟨t, hruns, hholds, hrax, hrsp, -⟩ := runs_callPop hp ho hc hsp hcall h hroom
  obtain ⟨s', hs', hholds', hregs, -⟩ := exec_binary hp ho hholds .mov rfl (w := none)
    (leads_register i.toNat) hi (.reg .rax .byte)
  have hvalue : (X86.Operand.reg .rax .byte).value im.symbol t .byte = m.top.toNat := hrax
  rw [hvalue] at hholds'
  have hbyte : UInt8.ofNat m.top.toNat = m.top := UInt8.ofNat_toNat
  refine ⟨c, s', hruns.trans (Image.runs_op hmov hs'), hlaid, ?_, by rw [hregs, hrsp]⟩
  rw [Machine.setReg_eq, ← hbyte]
  exact hholds'

/-- The place behind a call is pushed, its low byte first. -/
theorem follows_call (hsp : m.sp < o.stackSize) (hpc : m.pc = k + 1) (x y : UInt16) :
    Follows im es stack n k ⟨.call, x, y⟩ m := by
  have hnum (j : Nat) : ∀ s m', Holds im es s (m' : Machine o) →
      (Arg.num (j % 256)).x86.value im.symbol s .byte = (UInt8.ofNat j).toNat := by
    intro s m' _
    show (((j % 256 : Nat) : Int) % 256).toNat = j % 256
    omega
  let pushed := m.push (UInt8.ofNat (k + 1))
  have hlow : Does im es stack (pushByte (.num ((k + 1) % 256))) m pushed :=
    does_pushByte hp ho hc hsp rfl (hnum (k + 1) · m)
  have hhigh : Does im es stack (pushByte (.num ((k + 1) / 256 % 256))) pushed
      (pushed.push (UInt8.ofNat ((k + 1) / 256))) :=
    does_pushByte hp ho hc (Machine.sp_push_lt hsp _) rfl (hnum ((k + 1) / 256) · _)
  intro scope rest a s hlaid h hroom
  have hcode : (instrs ⟨.call, x, y⟩ k n).map Instr.element ++ rest =
      (pushByte (.num ((k + 1) % 256)) ++ pushByte (.num ((k + 1) / 256 % 256))).map Instr.element ++
        (Instr.jump .always (target x.toNat n)).element :: rest := by
    simp [instrs]
  rw [hcode] at hlaid
  obtain ⟨b, t, hruns, hlaid, hholds, hrsp⟩ := (hlow.append hhigh) _ _ _ _ hlaid h hroom
  obtain ⟨c, hjump, -⟩ := hlaid.next (read_jump .always _)
  have hresult : m.execute ⟨.call, x, y⟩ =
      { (m.push (UInt8.ofNat (k + 1))).push (UInt8.ofNat ((k + 1) / 256)) with pc := x.toNat } := by
    rw [← hpc]
    rfl
  refine ⟨_, t, hruns.trans (Image.runs_taken hjump rfl), ?_, hrsp, ?_⟩
  · rw [hresult]
    exact hholds.goes _ _
  · exact .label

omit hp ho hc in
/-- The byte in `al` is brought to the place of a high byte in `rbx`. -/
theorem runs_widen {b c : Word} (h : Holds im es s m) {high : Nat} (hhigh : high < 256)
    (hwiden : im.Code [.op (.movzx .rbx .dword (.reg .rax .byte) .byte)] a b)
    (hshift : im.Code [.op (.binary .shl .dword (.reg .rbx .dword) (.num 8))] b c)
    (hrax : s.get .rax .byte = high) :
    ∃ t, im.Runs (a, s) (c, t) ∧ Holds im es t m ∧ t.regs .rbx = BitVec.ofNat 64 (high * 256) ∧
      t.regs .rsp = s.regs .rsp := by
  let widened := s.set .rbx .dword high
  have hwidened : (Op.movzx .rbx .dword (.reg .rax .byte) .byte).exec im.symbol s = some widened :=
    congrArg (fun v => some (s.set .rbx .dword v)) hrax
  have hebx : widened.get .rbx .dword = high :=
    (State.get_set_self ..).trans (Nat.mod_eq_of_lt (by
      show high < 4294967296
      omega))
  let shifted := { widened with
    flags := X86.BinaryOp.shl.flags .dword high 8 widened.flags }.set .rbx .dword
      (X86.BinaryOp.shl.result .dword high 8)
  have hshifted : (Op.binary .shl .dword (.reg .rbx .dword) (.num 8)).exec im.symbol widened =
      some shifted := exec_register rfl hebx rfl
  refine ⟨shifted, (Image.runs_op hwiden hwidened).trans (Image.runs_op hshift hshifted),
    h.scratch rfl rfl rfl, ?_, rfl⟩
  show BitVec.ofNat 64 (high * 256 % 4294967296 % 4294967296) = _
  rw [Nat.mod_mod, Nat.mod_eq_of_lt (by omega)]

omit hp ho hc in
/-- The byte in `al` joins a high byte in `rbx`. -/
theorem runs_combine {b : Word} (h : Holds im es s m) {high low : Nat} (hhigh : high < 256)
    (hlow : low < 256)
    (hcombine : im.Code [.op (.binary .or .byte (.reg .rbx .byte) (.reg .rax .byte))] a b)
    (hrax : s.get .rax .byte = low) (hrbx : s.regs .rbx = BitVec.ofNat 64 (high * 256)) :
    ∃ t, im.Runs (a, s) (b, t) ∧ Holds im es t m ∧
      t.regs .rbx = BitVec.ofNat 64 (high * 256 + low) ∧ t.regs .rsp = s.regs .rsp := by
  have hbl : s.get .rbx .byte = 0 := by
    show (s.regs .rbx).toNat % 256 = 0
    rw [hrbx, BitVec.toNat_ofNat]
    omega
  let combined := { s with flags := X86.BinaryOp.or.flags .byte 0 low s.flags }.set .rbx .byte
    (X86.BinaryOp.or.result .byte 0 low)
  have hcombined : (Op.binary .or .byte (.reg .rbx .byte) (.reg .rax .byte)).exec im.symbol s =
      some combined := exec_register rfl hbl hrax
  refine ⟨combined, Image.runs_op hcombine hcombined, h.scratch rfl rfl rfl, ?_, rfl⟩
  calc combined.regs .rbx = State.merge (s.regs .rbx) (0 ||| low) .byte := State.regs_set_self ..
    _ = BitVec.ofNat 64 (high * 256 + low) := by
      have hsum : high * 256 % 2 ^ 64 / 256 * 256 + low % 256 = high * 256 + low := by omega
      rw [hrbx, State.merge, BitVec.toNat_ofNat, Nat.zero_or, hsum]

/-- The place to return to is popped, its high byte first. -/
theorem follows_ret (hsp : m.sp < o.stackSize) (hn : n < 2 ^ 32) (x y : UInt16) :
    Follows im es stack n k ⟨.ret, x, y⟩ m := by
  intro scope rest a s hlaid h hroom
  have hhigh : m.top.toNat < 256 := m.top.toNat_lt
  have hlow : m.lower.top.toNat < 256 := m.lower.top.toNat_lt
  have hround : m.lower.sp < o.stackSize := Machine.sp_lower_lt hsp
  have hmovzx : elementInstr? scope (Instr.binary .movzx (.reg .ebx) (.reg .al)).element =
      some (.op (.movzx .rbx .dword (.reg .rax .byte) .byte)) := read_binary rfl
  have hshl : elementInstr? scope (Instr.binary .shl (.reg .ebx) (.num 8)).element =
      some (.op (.binary .shl .dword (.reg .rbx .dword) (.num 8))) := read_binary rfl
  have hor : elementInstr? scope (Instr.binary .or (.reg .bl) (.reg .al)).element =
      some (.op (.binary .or .byte (.reg .rbx .byte) (.reg .rax .byte))) := read_binary rfl
  obtain ⟨b, hcall, hlaid⟩ := hlaid.next (read_call .pop)
  obtain ⟨c, hwiden, hlaid⟩ := hlaid.next hmovzx
  obtain ⟨d, hshift, hlaid⟩ := hlaid.next hshl
  obtain ⟨e, hcall', hlaid⟩ := hlaid.next (read_call .pop)
  obtain ⟨f, hcombine, hlaid⟩ := hlaid.next hor
  obtain ⟨g, hjump, -⟩ := hlaid.next (read_jump .always .dispatch)
  obtain ⟨t, hpop, hholds, hrax, hrsp₁, -⟩ := runs_callPop hp ho hc hsp hcall h hroom
  obtain ⟨u, hwidened, hholds, hrbx, hrsp₂⟩ := runs_widen hholds hhigh hwiden hshift hrax
  obtain ⟨v, hpop', hholds, hrax, hrsp₃, hkept⟩ := runs_callPop hp ho hc hround hcall' hholds
    (hroom.mono (hrsp₂.trans hrsp₁) (Nat.le_refl _))
  obtain ⟨w, hcombined, hholds, hplace, hrsp₄⟩ := runs_combine hholds hhigh hlow hcombine hrax
    (hkept.trans hrbx)
  obtain ⟨z, hdispatch, hholds, hrsp₅⟩ := runs_dispatch hp hc hholds (by omega) hn hplace
  have hfirst := (hpop.trans hwidened).trans (hpop'.trans hcombined)
  exact ⟨_, z, (hfirst.trans (Image.runs_taken hjump rfl)).trans hdispatch,
    hholds.goes (m.top.toNat * 256 + m.lower.top.toNat) m.running,
    hrsp₅.trans (hrsp₄.trans (hrsp₃.trans (hrsp₂.trans hrsp₁))), .label⟩

end

/-- A number is printed. -/
theorem follows_out (hp : Placed im es stack o n) (hc : Coded im) (hprints : Prints im es stack)
    {x : UInt16} (hx : x.toNat < o.registerCount) (hpc : m.pc = k + 1) (y : UInt16) :
    Follows im es stack n k ⟨.out, x, y⟩ m := by
  intro scope rest a s hlaid h hroom
  have hbyte := (m.reg x).toNat_lt
  have hmovzx : elementInstr? scope (Instr.binary .movzx (.reg .edi) (byteReg x)).element =
      some (.op (.movzx .rdi .dword (.mem (some .byte) (Cell.register x.toNat).terms) .byte)) :=
    read_binary rfl
  obtain ⟨b, hwiden, hlaid⟩ := hlaid.next hmovzx
  obtain ⟨c, hcall, hlaid⟩ := hlaid.next (read_call .out)
  let widened := s.set .rdi .dword (m.reg x).toNat
  have hwidened : (Op.movzx .rdi .dword (.mem (some .byte) (Cell.register x.toNat).terms)
      .byte).exec im.symbol s = some widened := by
    rw [Op.exec, Operand.value, leads_register]
    exact congrArg (fun v => some (s.set .rdi .dword v)) (h.load hx)
  have hedi : widened.get .rdi .dword = (m.reg x).toNat :=
    (State.get_set_self ..).trans (Nat.mod_eq_of_lt (by
      show (m.reg x).toNat < 4294967296
      omega))
  have hroom' : Room stack widened (24 + 8) := hroom.mono rfl (Nat.le_refl _)
  obtain ⟨t, hruns, hholds, -, hrsp, -⟩ := runs_routine hp hcall hroom' (h.set (by decide) _ _)
    (Q := fun _ => True) fun u hu hroom _ hrdi => by
      obtain ⟨b, c, t, hruns, hret, hkeeps, hholds⟩ := runs_out hp hc hprints hu hroom (by omega)
        (hrdi.trans hedi)
      exact ⟨b, c, t, hruns, hret, hkeeps, hholds, trivial⟩
  exact ⟨c, t.drop, (Image.runs_op hwiden hwidened).trans hruns, hholds, hrsp,
    .behind hlaid Opcode.noConfusion hpc⟩

theorem toNat_beq_zero (v : UInt8) : (v.toNat == 0) = (v == 0) := by
  rw [Bool.eq_iff_iff, beq_iff_eq, beq_iff_eq, ← UInt8.toNat_inj]
  rfl

/-- A jump that depends on a register. -/
theorem follows_branch (taken : Bool) {x : UInt16} (hx : x.toNat < o.registerCount)
    (hpc : m.pc = k + 1) {w : RomWord} {c : Condition} {y : UInt16}
    (hw : instrs w k n = [.binary .cmp (byteReg x) (.num 0), .jump c (target y.toNat n)])
    (hop : w.op ≠ .hlt) (hc : ∀ f : Flags, f.zero = some ((m.reg x).toNat == 0) →
      c.x86.holds? f = some taken)
    (hexecute : m.execute w = if taken then m.jump y else m) : Follows im es stack n k w m := by
  intro scope rest a s hlaid h hroom
  rw [hw] at hlaid
  have hread : elementInstr? scope (Instr.binary .cmp (byteReg x) (.num 0)).element =
      some (.op (.binary .cmp .byte (.mem (some .byte) (Cell.register x.toNat).terms) (.num 0))) :=
    read_binary rfl
  obtain ⟨b, hcmp, hlaid⟩ := hlaid.next hread
  obtain ⟨d, hjump, hlaid⟩ := hlaid.next (read_jump c _)
  have hvalue : (X86.Operand.mem (some .byte) (Cell.register x.toNat).terms).value im.symbol s
      .byte = (m.reg x).toNat := by
    rw [Operand.value, leads_register]
    exact h.load hx
  let compared : X86.State :=
    { s with flags := X86.BinaryOp.cmp.flags .byte (m.reg x).toNat 0 s.flags }
  have hcompared : (Op.binary .cmp .byte (.mem (some .byte) (Cell.register x.toNat).terms)
      (.num 0)).exec im.symbol s = some compared := by
    simp only [Op.exec, hvalue]
    rfl
  have hzero : compared.flags.zero = some ((m.reg x).toNat == 0) := by
    have hbyte := (m.reg x).toNat_lt
    have hresult : ((m.reg x).toNat + 256 - 0) % 256 = (m.reg x).toNat := by omega
    exact congrArg (fun k => some (k == 0)) hresult
  have hheld : Holds im es compared m := h.scratch rfl rfl rfl
  have hruns := Image.runs_op hcmp hcompared
  have hcondition := hc compared.flags hzero
  cases taken with
  | true =>
    rw [hexecute, if_pos rfl]
    refine ⟨_, compared, hruns.trans (Image.runs_taken hjump hcondition), hheld.goes _ _, rfl, ?_⟩
    have hgoal : target y.toNat n = goal w (m.jump y).pc n := (if_neg hop).symm
    rw [hgoal]
    exact .label
  | false =>
    rw [hexecute, if_neg Bool.false_ne_true]
    exact ⟨d, compared, hruns.trans (Image.runs_notTaken hjump hcondition), hheld, rfl,
      .behind hlaid hop hpc⟩

/-- **The code of a word does what the word does.** -/
theorem follows (hp : Placed im es stack o n) (ho : o.Valid) (hc : Coded im)
    (hprints : Prints im es stack) (hn : n < 2 ^ 32) {w : RomWord} (hw : w.InRange o n)
    (hsp : m.sp < o.stackSize) (hpc : m.pc = k + 1) : Follows im es stack n k w m := by
  have hmov : ∀ x y : UInt8, UInt8.ofNat (X86.BinaryOp.mov.result .byte x.toNat y.toNat) = y :=
    fun _ _ => UInt8.ofNat_toNat
  obtain ⟨op, a, b⟩ := w
  cases op with
  | nop => exact follows_of_does does_nop Opcode.noConfusion hpc
  | mov => exact follows_of_does (does_registers hp ho rfl rfl hmov (hw.a rfl) (hw.b rfl)) Opcode.noConfusion hpc
  | ldi => exact follows_of_does (does_number hp ho rfl rfl hmov (hw.a rfl) (hw.b rfl)) Opcode.noConfusion hpc
  | ld =>
    exact follows_of_does (does_move hp ho (fun _ => leads_memory b.toNat) (hw.b rfl)
      (fun _ => leads_register a.toNat) (hw.a rfl)) Opcode.noConfusion hpc
  | st =>
    exact follows_of_does (does_move hp ho (fun _ => leads_register b.toNat) (hw.b rfl)
      (fun _ => leads_memory a.toNat) (hw.a rfl)) Opcode.noConfusion hpc
  | ldp =>
    exact follows_of_does (does_pointed hp ho (hw.b rfl) (fun _ h => h) (m.pointed_lt ho b)
      (fun _ _ => leads_register a.toNat) (hw.a rfl)) Opcode.noConfusion hpc
  | stp =>
    exact follows_of_does (does_pointed hp ho (hw.a rfl) (fun _ _ => leads_register b.toNat)
      (hw.b rfl) (fun _ h => h) (m.pointed_lt ho a)) Opcode.noConfusion hpc
  | add =>
    exact follows_of_does (does_registers hp ho rfl rfl ofNat_add (hw.a rfl) (hw.b rfl)) Opcode.noConfusion hpc
  | addi =>
    exact follows_of_does (does_number hp ho rfl rfl ofNat_add (hw.a rfl) (hw.b rfl)) Opcode.noConfusion hpc
  | sub =>
    exact follows_of_does (does_registers hp ho rfl rfl ofNat_sub (hw.a rfl) (hw.b rfl)) Opcode.noConfusion hpc
  | subi =>
    exact follows_of_does (does_number hp ho rfl rfl ofNat_sub (hw.a rfl) (hw.b rfl)) Opcode.noConfusion hpc
  | and =>
    exact follows_of_does (does_registers hp ho rfl rfl ofNat_and (hw.a rfl) (hw.b rfl)) Opcode.noConfusion hpc
  | or =>
    exact follows_of_does (does_registers hp ho rfl rfl ofNat_or (hw.a rfl) (hw.b rfl)) Opcode.noConfusion hpc
  | xor =>
    exact follows_of_does (does_registers hp ho rfl rfl ofNat_xor (hw.a rfl) (hw.b rfl)) Opcode.noConfusion hpc
  | not => exact follows_of_does (does_unary hp ho rfl ofNat_not (hw.a rfl)) Opcode.noConfusion hpc
  | shl =>
    exact follows_of_does (does_immediate hp ho rfl rfl ofNat_shl (hw.a rfl) (by decide)) Opcode.noConfusion hpc
  | shr =>
    exact follows_of_does (does_immediate hp ho rfl rfl ofNat_shr (hw.a rfl) (by decide)) Opcode.noConfusion hpc
  | inc => exact follows_of_does (does_unary hp ho rfl ofNat_inc (hw.a rfl)) Opcode.noConfusion hpc
  | dec => exact follows_of_does (does_unary hp ho rfl ofNat_dec (hw.a rfl)) Opcode.noConfusion hpc
  | jmp =>
    intro scope rest addr s hlaid h hroom
    obtain ⟨c, hjump, -⟩ := hlaid.next (read_jump .always _)
    exact ⟨_, s, Image.runs_taken hjump rfl, h.goes _ _, rfl, .label⟩
  | jz =>
    refine follows_branch (m.reg a == 0) (hw.a rfl) hpc rfl Opcode.noConfusion (fun f hf => ?_) ?_
    · rw [Condition.x86, X86.Condition.holds?, hf, toNat_beq_zero]
    · by_cases hzero : m.reg a = 0 <;> simp [Machine.execute, hzero]
  | jnz =>
    refine follows_branch (m.reg a != 0) (hw.a rfl) hpc rfl Opcode.noConfusion (fun f hf => ?_) ?_
    · rw [Condition.x86, X86.Condition.holds?, hf, toNat_beq_zero]
      rfl
    · by_cases hzero : m.reg a = 0 <;> simp [Machine.execute, hzero]
  | push =>
    refine follows_of_does (does_pushByte hp ho hc hsp rfl fun s h => ?_) Opcode.noConfusion hpc
    show X86.load s.mem (address im.symbol s.regs (Cell.register a.toNat).terms) 1 = _
    rw [leads_register]
    exact h.load (hw.a rfl)
  | pop => exact follows_of_does (does_pop hp ho hc (hw.a rfl) hsp) Opcode.noConfusion hpc
  | call => exact follows_call hp ho hc hsp hpc a b
  | ret => exact follows_ret hp ho hc hsp hn a b
  | out => exact follows_out hp hc hprints (hw.a rfl) hpc b
  | hlt =>
    intro scope rest addr s hlaid h hroom
    obtain ⟨c, hjump, -⟩ := hlaid.next (read_jump .always .finish)
    exact ⟨_, s, Image.runs_taken hjump rfl, h.goes _ _, rfl, .label⟩

end Steps

end Nasm

end MacroAsm
