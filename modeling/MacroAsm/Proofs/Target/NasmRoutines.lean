import MacroAsm.Proofs.Target.CSteps
import MacroAsm.Proofs.Target.NasmBlocks

set_option autoImplicit false

/-! # The routines of the template

Pushing and popping a byte, jumping through the table and printing: what each routine does to the
machine that the processor holds, from the call to what follows it. A routine may change any register
but `rbx`, and leaves the processor's stack as it finds it. -/

namespace MacroAsm

variable {o : Options}

open CFamily (Bank)

namespace Nasm

open Assembly X86

/-! ## Code -/

/-- Compare the place in `rbx` with the number of instructions. -/
def checkOps : List Op :=
  [.binary .cmp .qword (.reg .rbx .qword) (.sym "ROM_SIZE")]

/-- Store `al`, move the stack pointer up, and compare it with the size of the stack. -/
def pushOps : List Op :=
  [.lea .rcx [.sym "stack"],
   .binary .mov .byte (.mem none [.reg .rcx 1, .reg .r12 1]) (.reg .rax .byte),
   .unary .inc .qword (.reg .r12 .qword),
   .binary .cmp .qword (.reg .r12 .qword) (.sym "STACK_SIZE")]

/-- Move the stack pointer down and load `al`. -/
def popOps : List Op :=
  [.unary .dec .qword (.reg .r12 .qword), .lea .rcx [.sym "stack"],
   .binary .mov .byte (.reg .rax .byte) (.mem none [.reg .rcx 1, .reg .r12 1])]

/-- Align the processor's stack, and pass the text and the number to print. -/
def printOps : List Op :=
  [.push .rbp, .binary .mov .qword (.reg .rbp .qword) (.reg .rsp .qword),
   .binary .and .qword (.reg .rsp .qword) (.num (-16)),
   .binary .mov .dword (.reg .rsi .dword) (.reg .rdi .dword), .lea .rdi [.sym "out_fmt"],
   .binary .xor .dword (.reg .rax .dword) (.reg .rax .dword)]

/-- Give the processor's stack back. -/
def restoreOps : List Op :=
  [.binary .mov .qword (.reg .rsp .qword) (.reg .rbp .qword), .pop .rbp]

/-- Behind the labels of the template stands this code. -/
structure Coded (im : Image) : Prop where
  finish : ∃ b, im.code (im.symbol "mccpu_end") =
    some (.op (.binary .xor .dword (.reg .rax .dword) (.reg .rax .dword)), b)
  dispatch : ∃ b c d e, im.Code (checkOps.map .op) (im.symbol "mccpu_dispatch") b ∧
    im.Code [.jump .notBelow "mccpu_end"] b c ∧ im.Code [.op (.lea .rcx [.sym "rom_table"])] c d ∧
    im.Code [.jumpThrough [.reg .rcx 1, .reg .rbx 8]] d e
  push : ∃ b c d, im.Code (pushOps.map .op) (im.symbol "mccpu_push") b ∧
    im.Code [.jump .below "mccpu_push.done"] b c ∧
    im.Code [.op (.binary .xor .dword (.reg .r12 .dword) (.reg .r12 .dword))] c
      (im.symbol "mccpu_push.done") ∧
    im.Code [.ret] (im.symbol "mccpu_push.done") d
  pop : ∃ b c d e, im.Code [.op (.binary .test .qword (.reg .r12 .qword) (.reg .r12 .qword))]
      (im.symbol "mccpu_pop") b ∧
    im.Code [.jump .notEqual "mccpu_pop.dec"] b c ∧
    im.Code [.op (.binary .mov .qword (.reg .r12 .qword) (.sym "STACK_SIZE"))] c
      (im.symbol "mccpu_pop.dec") ∧
    im.Code (popOps.map .op) (im.symbol "mccpu_pop.dec") d ∧ im.Code [.ret] d e
  out : ∃ b c d e, im.Code (printOps.map .op) (im.symbol "mccpu_out") b ∧
    im.Code [.callLinked "printf"] b c ∧ im.Code (restoreOps.map .op) c d ∧ im.Code [.ret] d e

section Routines

variable {im : Image} {es : List Element} {stack : Region} {n : Nat}
variable {s t : X86.State} {m m' : Machine o} {a next : Word}

/-! ## Calls -/

/-- A call of a routine that runs to its return and keeps the stack. -/
theorem runs_routine (hp : Placed im es stack o n) {target : String} {k : Nat}
    (hcall : im.Code [.call target] a next) (hroom : Room stack s (k + 8)) (h : Holds im es s m)
    {Q : X86.State → Prop}
    (hbody : ∀ u, Holds im es u m → Room stack u k → u.get .rax .byte = s.get .rax .byte →
      u.get .rdi .dword = s.get .rdi .dword → ∃ b c t, im.Runs (im.symbol target, u) (b, t) ∧
        im.Code [.ret] b c ∧ Keeps stack u t ∧ Holds im es t m' ∧ Q t) :
    ∃ t, im.Runs (a, s) (next, t.drop) ∧ Holds im es t.drop m' ∧ Q t ∧
      t.drop.regs .rsp = s.regs .rsp ∧ t.drop.regs .rbx = s.regs .rbx := by
  have hget {r : X86.Reg} (hr : r ≠ .rsp) (w : Width) : (s.push next).get r w = s.get r w := by
    rw [State.get, State.get, State.regs_push_of_ne s hr]
  obtain ⟨b, c, t, hruns, hret, hkeeps, hholds, hQ⟩ := hbody (s.push next) (h.pushed hp hroom next)
    (hroom.push next) (hget (by decide) _) (hget (by decide) _)
  have htop : t.top = next := top_push hroom next hkeeps
  have hreturn := Image.runs_ret hret (s := t)
  rw [htop] at hreturn
  refine ⟨t, ((Image.runs_call hcall).trans hruns).trans hreturn,
    hholds.scratch rfl (State.regs_drop_of_ne t (by decide)) rfl, hQ, ?_, ?_⟩
  · rw [State.rsp_drop, hkeeps.rsp, State.rsp_push, BitVec.sub_add_cancel]
  · rw [State.regs_drop_of_ne t (by decide), hkeeps.rbx, State.regs_push_of_ne s (by decide)]

/-! ## The stack pointer -/

theorem Holds.get_r12 (h : Holds im es s m) (hsp : m.sp < 2 ^ 64) :
    s.get .r12 .qword = m.sp := by
  rw [State.get, h.sp, BitVec.toNat_ofNat, Nat.mod_eq_of_lt hsp]
  exact Nat.mod_eq_of_lt hsp

/-- The stack pointer is wherever `r12` is put. -/
theorem Holds.setSp (h : Holds im es s m) {w : Width} {v k : Nat}
    (hv : State.merge (s.regs .r12) v w = BitVec.ofNat 64 k) :
    Holds im es (s.set .r12 w v) { m with sp := k } :=
  ⟨h.toHoldsBytes, (State.regs_set_self s .r12 w v).trans hv, h.output⟩

theorem keeps_set {r : X86.Reg} (hrsp : r ≠ .rsp) (hrbx : r ≠ .rbx) (f : Flags) (w : Width)
    (v : Nat) : Keeps stack s ({ s with flags := f }.set r w v) :=
  .of_mem rfl (State.regs_set_of_ne _ _ _ hrsp.symm) (State.regs_set_of_ne _ _ _ hrbx.symm)

/-- An operation on the stack pointer. -/
theorem exec_sp (stack : Region) (h : Holds im es s m) (hsp : m.sp < 2 ^ 64) {op : X86.UnaryOp} {k : Nat}
    (hk : op.result .qword m.sp = k) :
    ∃ t, (Op.unary op .qword (.reg .r12 .qword)).exec im.symbol s = some t ∧
      Holds im es t { m with sp := k } ∧ Keeps stack s t := by
  subst hk
  have hflags : Holds im es { s with flags := op.flags .qword m.sp s.flags } m :=
    h.scratch rfl rfl rfl
  refine ⟨_, ?_, hflags.setSp (w := .qword) (v := op.result .qword m.sp) rfl,
    keeps_set (by decide) (by decide) _ _ _⟩
  rw [Op.exec, Operand.value, h.get_r12 hsp]
  rfl

/-- A name that stands for a number. -/
theorem value_sym {name : String} {k : Nat} (h : im.symbol name = BitVec.ofNat 64 k)
    (hk : k < 2 ^ 64) : (X86.Operand.sym name).value im.symbol s .qword = k := by
  rw [Operand.value, h, BitVec.toNat_ofNat, Nat.mod_eq_of_lt hk]
  exact Nat.mod_eq_of_lt hk

/-- The stack pointer is cleared. -/
theorem exec_clear (stack : Region) (h : Holds im es s m) :
    ∃ t, (Op.binary .xor .dword (.reg .r12 .dword) (.reg .r12 .dword)).exec im.symbol s = some t ∧
      Holds im es t { m with sp := 0 } ∧ Keeps stack s t := by
  let x := s.get .r12 .dword
  have hflags : Holds im es { s with flags := X86.BinaryOp.xor.flags .dword x x s.flags } m :=
    h.scratch rfl rfl rfl
  have hzero : State.merge (s.regs .r12) (x ^^^ x) .dword = BitVec.ofNat 64 0 := by
    rw [Nat.xor_self]
    rfl
  exact ⟨_, rfl, hflags.setSp hzero, keeps_set (by decide) (by decide) _ _ _⟩

/-- The stack pointer is put behind the stack. -/
theorem exec_full (hp : Placed im es stack o n) (ho : o.Valid) (h : Holds im es s m) :
    ∃ t, (Op.binary .mov .qword (.reg .r12 .qword) (.sym "STACK_SIZE")).exec im.symbol s = some t ∧
      Holds im es t { m with sp := o.stackSize } ∧ Keeps stack s t := by
  have hsize := ho.stackSize
  have hvalue : (im.symbol "STACK_SIZE").toNat % Width.qword.modulus = o.stackSize :=
    value_sym (s := s) hp.stackSize (by omega)
  refine ⟨_, rfl, h.setSp (w := .qword) ?_, keeps_set (by decide) (by decide) s.flags _ _⟩
  exact congrArg (BitVec.ofNat 64) hvalue

/-- A comparison sets the flags alone. -/
theorem exec_flags (op : X86.BinaryOp) (hop : op.keeps = false) {x y : X86.Operand} {k l : Nat}
    (hx : x.value im.symbol s .qword = k) (hy : y.value im.symbol s .qword = l) :
    (Op.binary op .qword x y).exec im.symbol s =
      some { s with flags := op.flags .qword k l s.flags } := by
  simp [Op.exec, hop, hx, hy]

/-- `rcx` and `r12` lead to the byte at the stack pointer. -/
theorem leads_stack (h : Holds im es s m) :
    Leads im (s.set .rcx .qword (address im.symbol s.regs [.sym "stack"]).toNat)
      [.reg .rcx 1, .reg .r12 1] m.sp .stack := by
  rw [Leads, address_reg_reg, State.regs_set_qword, address_sym,
    State.regs_set_of_ne _ _ _ (by decide), h.sp, BitVec.mul_one]
  rfl

section

variable (hp : Placed im es stack o n) (ho : o.Valid) (hc : Coded im)

include hp ho hc

omit hc in
/-- The byte in `al` is put onto the stack, and the pointer behind it is compared with the end. -/
theorem exec_push (h : Holds im es s m) (hsp : m.sp < o.stackSize) :
    ∃ t, execOps im.symbol pushOps s = some t ∧ Keeps stack s t ∧
      Holds im es t { m.write m.sp (UInt8.ofNat (s.get .rax .byte)) .stack with sp := m.sp + 1 } ∧
      t.flags.carry = some (decide (m.sp + 1 < o.stackSize)) := by
  have hsize := ho.stackSize
  let v := UInt8.ofNat (s.get .rax .byte)
  let based := s.set .rcx .qword (address im.symbol s.regs [.sym "stack"]).toNat
  have hbased : Holds im es based m := h.set (by decide) _ _
  obtain ⟨stored, hstored, hstoredHolds, -, hkept⟩ := exec_binary hp ho hbased .mov rfl
    (w := none) (leads_stack h) hsp (.reg .rax .byte)
  have hal : (X86.Operand.reg .rax .byte).value im.symbol based .byte = s.get .rax .byte :=
    State.get_set_of_ne _ _ _ (by decide) _
  have hholds : Holds im es stored (m.write m.sp v .stack) := by
    rwa [hal] at hstoredHolds
  have hnext : X86.UnaryOp.inc.result .qword m.sp = m.sp + 1 := Nat.mod_eq_of_lt (by
    show m.sp + 1 < 18446744073709551616
    omega)
  obtain ⟨moved, hmoved, hholds, hkept'⟩ := exec_sp stack hholds
    (by show m.sp < _; omega) hnext
  have hr12 : (X86.Operand.reg .r12 .qword).value im.symbol moved .qword = m.sp + 1 :=
    hholds.get_r12 (by show m.sp + 1 < _; omega)
  have hcompared := exec_flags .cmp rfl hr12 (value_sym hp.stackSize (by omega))
  let compared : X86.State :=
    { moved with flags := X86.BinaryOp.cmp.flags .qword (m.sp + 1) o.stackSize moved.flags }
  have hbasedKept : Keeps stack s based := keeps_set (by decide) (by decide) s.flags _ _
  refine ⟨compared, ?_, (hbasedKept.trans hkept).trans (hkept'.trans (.of_mem rfl rfl rfl)),
    hholds.scratch rfl rfl rfl, rfl⟩
  have hlea : (Op.lea .rcx [.sym "stack"]).exec im.symbol s = some based := rfl
  rw [pushOps, execOps_cons, hlea, Option.bind_some, execOps_cons, hstored, Option.bind_some,
    execOps_cons, hmoved, Option.bind_some, execOps_cons]
  exact congrArg (Option.bind · _) hcompared

/-- The routine that pushes the byte in `al`. -/
theorem runs_push (h : Holds im es s m) (hsp : m.sp < o.stackSize) :
    ∃ b c t, im.Runs (im.symbol "mccpu_push", s) (b, t) ∧ im.Code [.ret] b c ∧ Keeps stack s t ∧
      Holds im es t (m.push (UInt8.ofNat (s.get .rax .byte))) := by
  obtain ⟨b, c, d, hops, hjump, hclear, hret⟩ := hc.push
  obtain ⟨u, hexec, hkeeps, hheld, hcarry⟩ := exec_push hp ho h hsp
  have hruns := Image.runs_ops hops hexec
  by_cases hlast : m.sp + 1 = o.stackSize
  · -- the stack is full: the pointer starts again
    rw [decide_eq_false (by omega)] at hcarry
    have hjumps := Image.runs_notTaken hjump hcarry
    obtain ⟨t, ht, hheld', hkept⟩ := exec_clear stack hheld
    refine ⟨_, d, t, (hruns.trans hjumps).trans (Image.runs_op hclear ht), hret,
      hkeeps.trans hkept, ?_⟩
    rw [Machine.push, if_pos hlast]
    exact hheld'
  · rw [decide_eq_true (by omega)] at hcarry
    have hjumps := Image.runs_taken hjump hcarry
    refine ⟨_, d, u, hruns.trans hjumps, hret, hkeeps, ?_⟩
    rw [Machine.push, if_neg hlast]
    exact hheld

/-- The routine that pops brings the stack pointer to one above that of the machine after it. -/
theorem runs_dec (h : Holds im es s m) (hsp : m.sp < o.stackSize) :
    ∃ t, im.Runs (im.symbol "mccpu_pop", s) (im.symbol "mccpu_pop.dec", t) ∧ Keeps stack s t ∧
      Holds im es t { m with sp := m.lower.sp + 1 } := by
  have hsize := ho.stackSize
  obtain ⟨b, c, d, e, htest, hjump, hfull, -, -⟩ := hc.pop
  have hr12 : (X86.Operand.reg .r12 .qword).value im.symbol s .qword = m.sp :=
    h.get_r12 (by omega)
  have htested := Image.runs_op htest (exec_flags .test rfl hr12 hr12)
  let tested : X86.State :=
    { s with flags := X86.BinaryOp.test.flags .qword m.sp m.sp s.flags }
  have hheld : Holds im es tested m := h.scratch rfl rfl rfl
  have hkept : Keeps stack s tested := .of_mem rfl rfl rfl
  by_cases hzero : m.sp = 0
  · have hflag : (!((m.sp &&& m.sp) == 0)) = false := by simp [hzero]
    have hjumps := Image.runs_notTaken (s := tested) hjump (congrArg some hflag)
    have hlower : m.lower.sp + 1 = o.stackSize := by
      show (if m.sp = 0 then o.stackSize - 1 else m.sp - 1) + 1 = _
      rw [if_pos hzero]
      omega
    obtain ⟨u, hu, hheld', hkept'⟩ := exec_full hp ho hheld
    exact ⟨u, (htested.trans hjumps).trans (Image.runs_op hfull hu), hkept.trans hkept',
      hlower ▸ hheld'⟩
  · have hflag : (!((m.sp &&& m.sp) == 0)) = true := by simp [hzero]
    have hjumps := Image.runs_taken (s := tested) hjump (congrArg some hflag)
    have hlower : m.lower.sp + 1 = m.sp := by
      show (if m.sp = 0 then o.stackSize - 1 else m.sp - 1) + 1 = _
      rw [if_neg hzero]
      omega
    exact ⟨tested, htested.trans hjumps, hkept, hlower ▸ hheld⟩

omit hp hc in
/-- From there the byte on top is brought into `al`. -/
theorem exec_pop (stack : Region) (h : Holds im es s { m with sp := m.lower.sp + 1 })
    (hsp : m.sp < o.stackSize) :
    ∃ t, execOps im.symbol popOps s = some t ∧ Keeps stack s t ∧ Holds im es t m.lower ∧
      t.get .rax .byte = m.top.toNat := by
  have hsize := ho.stackSize
  have hround : m.lower.sp < o.stackSize := Machine.sp_lower_lt hsp
  have hresult : X86.UnaryOp.dec.result .qword (m.lower.sp + 1) = m.lower.sp := by
    show (m.lower.sp + 1 + 18446744073709551616 - 1) % 18446744073709551616 = _
    omega
  obtain ⟨lowered, hlowered, hheld, hkept⟩ := exec_sp stack h
    (by show m.lower.sp + 1 < _; omega) hresult
  have hholds : Holds im es lowered m.lower := hheld
  let based := lowered.set .rcx .qword (address im.symbol lowered.regs [.sym "stack"]).toNat
  have hbased : Holds im es based m.lower := hholds.set (by decide) _ _
  let popped := based.set .rax .byte m.top.toNat
  have hvalue : (X86.Operand.mem none [.reg .rcx 1, .reg .r12 1]).value im.symbol based .byte =
      m.top.toNat := by
    rw [Operand.value, leads_stack hholds]
    exact hbased.load hround
  have hlea : (Op.lea .rcx [.sym "stack"]).exec im.symbol lowered = some based := rfl
  have hload : (Op.binary .mov .byte (.reg .rax .byte)
      (.mem none [.reg .rcx 1, .reg .r12 1])).exec im.symbol based = some popped := by
    rw [Op.exec, hvalue]
    rfl
  have hbasedKept : Keeps stack lowered based :=
    keeps_set (by decide) (by decide) lowered.flags _ _
  have hpoppedKept : Keeps stack based popped := keeps_set (by decide) (by decide) based.flags _ _
  refine ⟨popped, ?_, hkept.trans (hbasedKept.trans hpoppedKept), hbased.set (by decide) _ _, ?_⟩
  · rw [popOps, execOps_cons, hlowered, Option.bind_some, execOps_cons, hlea, Option.bind_some,
      execOps_cons, hload]
    rfl
  · exact (State.get_set_self ..).trans (Nat.mod_eq_of_lt m.top.toNat_lt)

/-- The routine that pops a byte into `al`. -/
theorem runs_pop (h : Holds im es s m) (hsp : m.sp < o.stackSize) :
    ∃ b c t, im.Runs (im.symbol "mccpu_pop", s) (b, t) ∧ im.Code [.ret] b c ∧ Keeps stack s t ∧
      Holds im es t m.lower ∧ t.get .rax .byte = m.top.toNat := by
  obtain ⟨-, -, d, e, -, -, -, hops, hret⟩ := hc.pop
  obtain ⟨u, hruns, hkept, hheld⟩ := runs_dec hp ho hc h hsp
  obtain ⟨t, hexec, hkept', hholds, htop⟩ := exec_pop ho stack hheld hsp
  exact ⟨d, e, t, hruns.trans (Image.runs_ops hops hexec), hret, hkept.trans hkept', hholds, htop⟩

omit ho in
/-- The routine that goes on at the place in `rbx`. -/
theorem runs_dispatch (h : Holds im es s m) {pc : Nat} (hpc : pc < 2 ^ 32) (hn : n < 2 ^ 32)
    (hrbx : s.regs .rbx = BitVec.ofNat 64 pc) :
    ∃ t, im.Runs (im.symbol "mccpu_dispatch", s) (im.symbol (target pc n).written, t) ∧
      Holds im es t m ∧ t.regs .rsp = s.regs .rsp := by
  obtain ⟨b, c, d, e, hcheck, hjump, hlea, hthrough⟩ := hc.dispatch
  have hplace : (X86.Operand.reg .rbx .qword).value im.symbol s .qword = pc := by
    show (s.regs .rbx).toNat % 18446744073709551616 = pc
    rw [hrbx, BitVec.toNat_ofNat]
    omega
  have hchecks := Image.runs_op hcheck
    (exec_flags .cmp rfl hplace (value_sym hp.romSize (by omega)))
  let checked : X86.State := { s with flags := X86.BinaryOp.cmp.flags .qword pc n s.flags }
  have hheld : Holds im es checked m := h.scratch rfl rfl rfl
  by_cases hlt : pc < n
  · have hcarry : (!decide (pc < n)) = false := by simp [hlt]
    have hjumps := Image.runs_notTaken (s := checked) hjump (congrArg some hcarry)
    let based := checked.set .rcx .qword (address im.symbol checked.regs [.sym "rom_table"]).toNat
    have hbased : Holds im es based m := hheld.set (by decide) _ _
    have hleas : im.Runs (c, checked) (d, based) := Image.runs_op hlea rfl
    have hentry : address im.symbol based.regs [.reg .rcx 1, .reg .rbx 8] =
        offset (im.symbol "rom_table") (8 * pc) := by
      have hrcx : based.regs .rcx = im.symbol "rom_table" :=
        (State.regs_set_qword ..).trans (address_sym ..)
      have hrbx' : based.regs .rbx = BitVec.ofNat 64 pc :=
        (State.regs_set_of_ne _ _ _ (by decide)).trans hrbx
      rw [address_reg_reg, hrcx, hrbx', ← BitVec.ofNat_mul, Nat.mul_comm]
      rfl
    have hthroughs := Image.runs_jumpThrough (s := based) hthrough
    rw [hentry, hp.table hbased.table pc hlt, BitVec.ofNat_toNat, BitVec.setWidth_eq] at hthroughs
    refine ⟨based, ?_, hbased, State.regs_set_of_ne _ _ _ (by decide)⟩
    rw [target, if_pos hlt]
    exact (hchecks.trans hjumps).trans (hleas.trans hthroughs)
  · have hcarry : (!decide (pc < n)) = true := by simp [hlt]
    have hjumps := Image.runs_taken (s := checked) hjump (congrArg some hcarry)
    refine ⟨checked, ?_, hheld, rfl⟩
    rw [target, if_neg hlt]
    exact hchecks.trans hjumps

end

end Routines

/-! ## Printing -/

section Printing

variable {im : Image} {es : List Element} {stack : Region} {n : Nat}
variable {s : X86.State} {m : Machine o}

/-- `printf` is called for a number as the calling convention says: the stack is aligned, no vector
    registers are used, the format is in `rdi` and the number in `rsi`. -/
structure Called (stack : Region) (s : X86.State) : Prop where
  aligned : (s.regs .rsp).toNat % 16 = 0
  vectors : s.get .rax .byte = 0
  format : ∀ (i : Nat) (h : i < 4), s.mem (offset (s.regs .rdi) i) = [37, 100, 10, 0][i]
  room : Room stack s 0

/-- What is known of `printf` when it is called for a number: it prints the number and a line end, and
    keeps the registers that the convention says, the program's data and the stack from where it was
    called. -/
structure Prints (im : Image) (es : List Element) (stack : Region) : Prop where
  output : ∀ s, Called stack s → (im.linked "printf" s).output =
    s.output ++ toString (BitVec.ofNat 32 (s.get .rsi .dword)).toInt ++ "\n"
  regs : ∀ s, Called stack s → ∀ r ∈ [X86.Reg.rbx, .rbp, .rsp, .r12, .r13],
    (im.linked "printf" s).regs r = s.regs r
  data : ∀ s, Called stack s → ∀ x, .label x ∈ es → ∀ a, (im.object es x).Has a →
    (im.linked "printf" s).mem a = s.mem a
  stack : ∀ s, Called stack s → ∀ a, stack.Has a →
    distance stack.base (s.regs .rsp) ≤ distance stack.base a →
    (im.linked "printf" s).mem a = s.mem a

/-- Rounding down to a multiple of 16 by a mask. -/
theorem and_mask {x : Nat} (hx : x < 2 ^ 64) : x &&& 18446744073709551600 = x - x % 16 := by
  have hmask : 18446744073709551600 = (2 ^ 60 - 1) <<< 4 := by decide
  have hround : x - x % 16 = (x >>> 4) <<< 4 := by
    rw [Nat.shiftLeft_eq, Nat.shiftRight_eq_div_pow]
    omega
  rw [hmask, hround]
  refine Nat.eq_of_testBit_eq fun i => ?_
  rw [Nat.testBit_and, Nat.testBit_shiftLeft, Nat.testBit_shiftLeft, Nat.testBit_shiftRight,
    Nat.testBit_two_pow_sub_one]
  by_cases hi : 4 ≤ i
  · have hsum : 4 + (i - 4) = i := by omega
    by_cases hhigh : i < 64
    · have hlow : i - 4 < 60 := by omega
      simp [hi, hlow, hsum]
    · have hfalse : x.testBit i = false := Nat.testBit_lt_two_pow
        (Nat.lt_of_lt_of_le hx (Nat.pow_le_pow_right (by decide) (by omega)))
      simp [hfalse, hsum]
  · simp [hi]

/-- What is set up for `printf`. -/
theorem exec_print (im : Image) (s : X86.State) :
    ∃ t, execOps im.symbol printOps s = some t ∧ t.mem = (s.push (s.regs .rbp)).mem ∧
      t.output = s.output ∧ t.regs .r12 = s.regs .r12 ∧ t.regs .rbx = s.regs .rbx ∧
      t.regs .rbp = s.regs .rsp - 8 ∧
      (t.regs .rsp).toNat = (s.regs .rsp - 8).toNat - (s.regs .rsp - 8).toNat % 16 ∧
      t.regs .rdi = im.symbol "out_fmt" ∧ t.get .rsi .dword = s.get .rdi .dword ∧
      t.get .rax .byte = 0 := by
  have hword (v : Word) : BitVec.ofNat 64 (v.toNat % 18446744073709551616) = v := by
    rw [Nat.mod_eq_of_lt v.isLt, BitVec.ofNat_toNat, BitVec.setWidth_eq]
  let r := s.regs .rsp - 8
  refine ⟨_, rfl, rfl, rfl, rfl, rfl, hword r, ?_, ?_, ?_, ?_⟩
  · show (BitVec.ofNat 64 (r.toNat % 18446744073709551616 &&& 18446744073709551600)).toNat = _
    have hle : r.toNat - r.toNat % 16 ≤ r.toNat := Nat.sub_le ..
    rw [Nat.mod_eq_of_lt r.isLt, and_mask r.isLt, BitVec.toNat_ofNat]
    exact Nat.mod_eq_of_lt (Nat.lt_of_le_of_lt hle r.isLt)
  · show BitVec.ofNat 64 (address im.symbol _ [.sym "out_fmt"]).toNat = _
    rw [address_sym, BitVec.ofNat_toNat, BitVec.setWidth_eq]
  · let v := (s.regs .rdi).toNat % 4294967296
    show (BitVec.ofNat 64 (v % 4294967296)).toNat % 4294967296 = v
    rw [BitVec.toNat_ofNat]
    omega
  · show (BitVec.ofNat 64 ((_ ^^^ _) % 4294967296)).toNat % 256 = 0
    rw [Nat.xor_self]
    rfl

/-- `printf` prints a number that is no more than an `int` holds, and leaves the machine as it is. -/
theorem Holds.printed (hp : Placed im es stack o n) (hprints : Prints im es stack)
    (h : Holds im es s m) (hcalled : Called stack s) {v : Nat} (hv : v < 2 ^ 31)
    (hrsi : s.get .rsi .dword = v) :
    Holds im es (im.linked "printf" s) { m with output := m.output ++ toString v ++ "\n" } := by
  refine ⟨h.toHoldsBytes.congr hp fun x hx i hi => ?_,
    (hprints.regs s hcalled _ (by decide)).trans h.sp, ?_⟩
  · exact hprints.data s hcalled x (hp.label hx) _ (Region.has_offset (r := im.object es x) hi)
  · have hnumber : (BitVec.ofNat 32 v).toInt = (v : Int) := by
      have hnat : (BitVec.ofNat 32 v).toNat = v := by
        rw [BitVec.toNat_ofNat]
        omega
      rw [BitVec.toInt_eq_toNat_of_lt (by omega), hnat]
    rw [hprints.output s hcalled, hrsi, hnumber, h.output]
    rfl

/-- The routine that prints the number in `edi`. -/
theorem runs_out (hp : Placed im es stack o n) (hc : Coded im) (hprints : Prints im es stack)
    (h : Holds im es s m) (hroom : Room stack s 24) {v : Nat} (hv : v < 2 ^ 31)
    (hrdi : s.get .rdi .dword = v) :
    ∃ b c t, im.Runs (im.symbol "mccpu_out", s) (b, t) ∧ im.Code [.ret] b c ∧ Keeps stack s t ∧
      Holds im es t { m with output := m.output ++ toString v ++ "\n" } := by
  obtain ⟨b, c, d, e, hops, hcall, hrestore, hret⟩ := hc.out
  obtain ⟨t, ht, hmem, houtput, hr12, hrbx, hrbp, hrsp, hformat, hrsi, hrax⟩ := exec_print im s
  have hpushed := h.pushed hp hroom (s.regs .rbp)
  have hheld : Holds im es t m := hpushed.scratch hmem hr12 houtput
  have hbelow := hroom.1
  -- the stack pointer is at most 15 below what was pushed
  have hdistance : distance stack.base (t.regs .rsp) ≤ distance stack.base (s.regs .rsp) - 8 ∧
      distance stack.base (s.regs .rsp) ≤ stack.size := by
    refine ⟨?_, hroom.2⟩
    simp only [distance] at hbelow ⊢
    bv_omega
  have hcalled : Called stack t := by
    refine ⟨?_, hrax, ?_, ?_⟩
    · rw [hrsp]
      omega
    · rw [hformat]
      exact hp.format hheld.format
    · exact ⟨Nat.zero_le _, by omega⟩
  let u := im.linked "printf" t
  have hregs := hprints.regs t hcalled
  have hprinted : Holds im es u { m with output := m.output ++ toString v ++ "\n" } :=
    hheld.printed hp hprints hcalled hv (hrsi.trans hrdi)
  let restored := u.set .rsp .qword (u.get .rbp .qword)
  let popped := restored.drop.set .rbp .qword restored.top.toNat
  have hrsp' : popped.regs .rsp = s.regs .rsp := by
    have hu : u.regs .rbp = s.regs .rsp - 8 := (hregs _ (by decide)).trans hrbp
    show BitVec.ofNat 64 ((u.regs .rbp).toNat % 18446744073709551616) + 8 = s.regs .rsp
    rw [hu, Nat.mod_eq_of_lt (BitVec.isLt _), BitVec.ofNat_toNat, BitVec.setWidth_eq,
      BitVec.sub_add_cancel]
  have hkept : ∀ a, stack.Has a → distance stack.base (s.regs .rsp) ≤ distance stack.base a →
      popped.mem a = s.mem a := by
    intro a ha hle
    have habove : 8 ≤ distance (s.regs .rsp - 8) a := by
      simp only [distance] at hle hbelow ⊢
      bv_omega
    calc popped.mem a = t.mem a := hprints.stack t hcalled a ha (by omega)
      _ = (s.push (s.regs .rbp)).mem a := by rw [hmem]
      _ = s.mem a := store_of_le habove _
  refine ⟨d, e, popped, ?_, hret, ⟨hrsp', (hregs _ (by decide)).trans hrbx, hkept⟩,
    hprinted.scratch rfl rfl rfl⟩
  exact ((Image.runs_ops hops ht).trans (Image.runs_callLinked hcall)).trans
    (Image.runs_ops hrestore rfl)

end Printing

end Nasm

end MacroAsm
