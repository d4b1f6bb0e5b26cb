import MacroAsm.Proofs.Target.NasmReading
import MacroAsm.Proofs.Target.NasmState

set_option autoImplicit false

/-! # Blocks of instructions

What the instructions do that stand between the label of an encoded instruction and its jumps or calls:
they run through to what follows them, and the processor then holds the machine that results
(`Nasm.Does`). -/

namespace MacroAsm

variable {o : Options}

open CFamily (Bank)

namespace Machine

/-- Put a byte into a bank. -/
def write (m : Machine o) (i : Nat) (v : UInt8) (b : Bank) : Machine o :=
  { m with toBytes := m.toBytes.put i v b }

theorem setReg_eq (m : Machine o) (i : UInt16) (v : UInt8) :
    m.setReg i v = m.write i.toNat v .registers := rfl

end Machine

namespace Nasm

open Assembly X86

/-! ## Results on bytes -/

section Results

variable (x y : UInt8)

theorem ofNat_add : UInt8.ofNat (X86.BinaryOp.add.result .byte x.toNat y.toNat) = x + y := by
  rw [← UInt8.toNat_inj]
  show ((x.toNat + y.toNat) % 256) % 256 = (x.toNat + y.toNat) % 256
  rw [Nat.mod_mod]

theorem ofNat_sub : UInt8.ofNat (X86.BinaryOp.sub.result .byte x.toNat y.toNat) = x - y := by
  have hy := y.toNat_lt
  rw [← UInt8.toNat_inj, UInt8.toNat_sub]
  show ((x.toNat + 256 - y.toNat) % 256) % 256 = (256 - y.toNat + x.toNat) % 256
  omega

theorem ofNat_and : UInt8.ofNat (X86.BinaryOp.and.result .byte x.toNat y.toNat) = x &&& y := by
  rw [← UInt8.toNat_inj, UInt8.toNat_and]
  exact Nat.mod_eq_of_lt (Nat.and_lt_two_pow (n := 8) _ y.toNat_lt)

theorem ofNat_or : UInt8.ofNat (X86.BinaryOp.or.result .byte x.toNat y.toNat) = x ||| y := by
  rw [← UInt8.toNat_inj, UInt8.toNat_or]
  exact Nat.mod_eq_of_lt (Nat.or_lt_two_pow (n := 8) x.toNat_lt y.toNat_lt)

theorem ofNat_xor : UInt8.ofNat (X86.BinaryOp.xor.result .byte x.toNat y.toNat) = x ^^^ y := by
  rw [← UInt8.toNat_inj, UInt8.toNat_xor]
  exact Nat.mod_eq_of_lt (Nat.xor_lt_two_pow (n := 8) x.toNat_lt y.toNat_lt)

theorem ofNat_shl : UInt8.ofNat (X86.BinaryOp.shl.result .byte x.toNat 1) = x <<< 1 := by
  rw [← UInt8.toNat_inj, UInt8.toNat_shiftLeft, Nat.shiftLeft_eq]
  show (x.toNat * 2 % 256) % 256 = x.toNat * 2 % 256
  rw [Nat.mod_mod]

theorem ofNat_shr : UInt8.ofNat (X86.BinaryOp.shr.result .byte x.toNat 1) = x >>> 1 := by
  have hx := x.toNat_lt
  rw [← UInt8.toNat_inj, UInt8.toNat_shiftRight, Nat.shiftRight_eq_div_pow]
  show x.toNat / 2 % 256 = x.toNat / 2
  omega

theorem ofNat_not : UInt8.ofNat (X86.UnaryOp.not.result .byte x.toNat) = ~~~x := by
  rw [← UInt8.toNat_inj, UInt8.toNat_not]
  show (255 - x.toNat) % 256 = 255 - x.toNat
  omega

theorem ofNat_inc : UInt8.ofNat (X86.UnaryOp.inc.result .byte x.toNat) = x + 1 :=
  ofNat_add x 1

theorem ofNat_dec : UInt8.ofNat (X86.UnaryOp.dec.result .byte x.toNat) = x - 1 :=
  ofNat_sub x 1

end Results

/-! ## Places -/

section Places

variable {im : Image} {es : List Element} {s s' : X86.State} {m : Machine o} {i : Nat} {b : Bank}

/-- What is not in memory, in `r12` or printed is of no account. -/
theorem Holds.scratch (h : Holds im es s m) (hmem : s'.mem = s.mem)
    (hr12 : s'.regs .r12 = s.regs .r12) (houtput : s'.output = s.output) : Holds im es s' m :=
  ⟨hmem ▸ h.toHoldsBytes, hr12.trans h.sp, houtput.trans h.output⟩

theorem Holds.set (h : Holds im es s m) {r : X86.Reg} (hr : r ≠ .r12) (w : Width) (v : Nat) :
    Holds im es (s.set r w v) m :=
  h.scratch rfl (State.regs_set_of_ne s w v hr.symm) rfl

theorem Holds.load (h : Holds im es s m) (hi : i < o.bankSize b) :
    X86.load s.mem (offset (im.symbol b.written) i) 1 = (m.toBytes.byte i b).toNat := by
  rw [load_one, h.bank b i hi]

/-- An address in a state leads to a byte of a bank. -/
def Leads (im : Image) (s : X86.State) (ts : List Term) (i : Nat) (b : Bank) : Prop :=
  address im.symbol s.regs ts = offset (im.symbol b.written) i

theorem leads_register (i : Nat) : Leads im s (Cell.register i).terms i .registers :=
  address_sym_num im.symbol s.regs "registers" i

theorem leads_memory (i : Nat) : Leads im s (Cell.memory i).terms i .memory :=
  address_sym_num im.symbol s.regs "memory" i

theorem leads_indexed (hrcx : s.regs .rcx = im.symbol "memory")
    (hrdx : s.regs .rdx = BitVec.ofNat 64 i) : Leads im s Cell.indexed.terms i .memory := by
  rw [Leads, Cell.terms, address_reg_reg, hrcx, hrdx, BitVec.mul_one]
  rfl

/-- Writes to `rax` move no place. -/
theorem Leads.set_rax {c : Cell} (h : Leads im s c.terms i b) (w : Width) (v : Nat) :
    Leads im (s.set .rax w v) c.terms i b := by
  cases c with
  | register j => exact h
  | memory j => exact h
  | indexed => exact h

end Places

/-! ## Writes -/

section Writes

variable {im : Image} {es : List Element} {stack : Region} {n : Nat}
variable {s : X86.State} {m : Machine o} {i j : Nat} {b d : Bank}
variable (hp : Placed im es stack o n) (ho : o.Valid)

include hp ho

/-- An operation on a byte of a bank and another operand. -/
theorem exec_binary (h : Holds im es s m) (op : X86.BinaryOp) (hop : op.keeps = true)
    {w : Option Width} {ts : List Term} (hl : Leads im s ts i b) (hi : i < o.bankSize b)
    (source : X86.Operand) :
    ∃ s', (Op.binary op .byte (.mem w ts) source).exec im.symbol s = some s' ∧
      Holds im es s' (m.write i (UInt8.ofNat (op.result .byte (m.toBytes.byte i b).toNat
        (source.value im.symbol s .byte))) b) ∧ s'.regs = s.regs ∧ Keeps stack s s' := by
  let x := (m.toBytes.byte i b).toNat
  let y := source.value im.symbol s .byte
  have hx : (X86.Operand.mem w ts).value im.symbol s .byte = x := by
    rw [Operand.value, hl]
    exact h.load hi
  let s' : X86.State :=
    { s with
      flags := op.flags .byte x y s.flags
      mem := store s.mem (offset (im.symbol b.written) i) 1 (op.result .byte x y) }
  refine ⟨s', ?_, ⟨h.toHoldsBytes.put hp ho hi _, h.sp, h.output⟩, rfl,
    ⟨rfl, rfl, fun _ ha _ => hp.store_eq hi _ ha⟩⟩
  simp only [Op.exec, hx, hop, if_true, Operand.assign]
  rw [hl]
  rfl

/-- An operation on a byte of a bank. -/
theorem exec_unary (h : Holds im es s m) (op : X86.UnaryOp) {w : Option Width} {ts : List Term}
    (hl : Leads im s ts i b) (hi : i < o.bankSize b) :
    ∃ s', (Op.unary op .byte (.mem w ts)).exec im.symbol s = some s' ∧
      Holds im es s' (m.write i (UInt8.ofNat (op.result .byte (m.toBytes.byte i b).toNat)) b) ∧
      s'.regs = s.regs := by
  let x := (m.toBytes.byte i b).toNat
  have hx : (X86.Operand.mem w ts).value im.symbol s .byte = x := by
    rw [Operand.value, hl]
    exact h.load hi
  let s' : X86.State :=
    { s with
      flags := op.flags .byte x s.flags
      mem := store s.mem (offset (im.symbol b.written) i) 1 (op.result .byte x) }
  refine ⟨s', ?_, ⟨h.toHoldsBytes.put hp ho hi _, h.sp, h.output⟩, rfl⟩
  simp only [Op.exec, hx, Operand.assign]
  rw [hl]
  rfl

/-- An operation on two bytes, one of them brought by `al`. -/
theorem exec_throughAl (h : Holds im es s m) (op : X86.BinaryOp) (hop : op.keeps = true)
    {load store : Cell} (hl : Leads im s load.terms i b) (hi : i < o.bankSize b)
    (hl' : Leads im s store.terms j d) (hj : j < o.bankSize d) :
    ∃ s', execOps im.symbol [.binary .mov .byte (.reg .rax .byte) (.mem none load.terms),
        .binary op .byte (.mem none store.terms) (.reg .rax .byte)] s = some s' ∧
      Holds im es s' (m.write j (UInt8.ofNat (op.result .byte (m.toBytes.byte j d).toNat
        (m.toBytes.byte i b).toNat)) d) ∧ s'.regs .rsp = s.regs .rsp := by
  have hbyte := (m.toBytes.byte i b).toNat_lt
  let loaded := s.set .rax .byte (m.toBytes.byte i b).toNat
  have hload : (Op.binary .mov .byte (.reg .rax .byte) (.mem none load.terms)).exec im.symbol s =
      some loaded := by
    have hvalue : (X86.Operand.mem none load.terms).value im.symbol s .byte =
        (m.toBytes.byte i b).toNat := by
      rw [Operand.value, hl]
      exact h.load hi
    rw [Op.exec, hvalue]
    rfl
  have hal : (X86.Operand.reg .rax .byte).value im.symbol loaded .byte = (m.toBytes.byte i b).toNat :=
    (State.get_set_self ..).trans (Nat.mod_eq_of_lt hbyte)
  obtain ⟨s', hs', hholds, hregs, -⟩ :=
    exec_binary hp ho (h.set (by decide) _ _) op hop (hl'.set_rax .byte _) hj (.reg .rax .byte)
      (s := loaded) (w := none)
  rw [hal] at hholds
  refine ⟨s', ?_, hholds, ?_⟩
  · rw [execOps_cons, hload, Option.bind_some, execOps_cons, hs']
    rfl
  · rw [hregs]
    exact State.regs_set_of_ne s .byte _ (by decide)

/-- A byte in `eax`, nothing in `edx`, and the divisor in `ecx`. -/
theorem exec_ready (h : Holds im es s m) {i : UInt16} (hi : i.toNat < o.registerCount) :
    ∃ t, execOps im.symbol
        [.movzx .rax .dword (.mem (some .byte) (Cell.register i.toNat).terms) .byte,
         .binary .xor .dword (.reg .rdx .dword) (.reg .rdx .dword),
         .binary .mov .dword (.reg .rcx .dword) (.sym "MEMORY_SIZE")] s = some t ∧
      Holds im es t m ∧ t.regs .rsp = s.regs .rsp ∧ t.get .rax .dword = (m.reg i).toNat ∧
      t.get .rdx .dword = 0 ∧ t.get .rcx .dword = o.memorySize := by
  have hbyte := (m.reg i).toNat_lt
  have hsize := ho.memorySize
  let v := (m.reg i).toNat
  let widened := s.set .rax .dword v
  let x := widened.get .rdx .dword
  let cleared := { widened with
    flags := X86.BinaryOp.xor.flags .dword x x widened.flags }.set .rdx .dword (x ^^^ x)
  let t := cleared.set .rcx .dword ((im.symbol "MEMORY_SIZE").toNat % Width.dword.modulus)
  have hfirst : (Op.movzx .rax .dword (.mem (some .byte) (Cell.register i.toNat).terms) .byte).exec
      im.symbol s = some widened := by
    rw [Op.exec, Operand.value, leads_register]
    exact congrArg (fun k => some (s.set .rax .dword k)) (h.load hi)
  have hkept {r : X86.Reg} (hr : r ≠ .rax ∧ r ≠ .rcx ∧ r ≠ .rdx) : t.regs r = s.regs r :=
    calc t.regs r = cleared.regs r := State.regs_set_of_ne _ _ _ hr.2.1
      _ = widened.regs r := State.regs_set_of_ne _ _ _ hr.2.2
      _ = s.regs r := State.regs_set_of_ne _ _ _ hr.1
  refine ⟨t, by rw [execOps_cons, hfirst]; rfl, h.scratch rfl (hkept (by decide)) rfl,
    hkept (by decide), ?_, ?_, ?_⟩
  · calc t.get .rax .dword = cleared.get .rax .dword := State.get_set_of_ne _ _ _ (by decide) _
      _ = widened.get .rax .dword := State.get_set_of_ne _ _ _ (by decide) _
      _ = v % 4294967296 := State.get_set_self ..
      _ = v := Nat.mod_eq_of_lt (by omega)
  · calc t.get .rdx .dword = cleared.get .rdx .dword := State.get_set_of_ne _ _ _ (by decide) _
      _ = (x ^^^ x) % 4294967296 := State.get_set_self ..
      _ = 0 := by rw [Nat.xor_self, Nat.zero_mod]
  · calc t.get .rcx .dword = (im.symbol "MEMORY_SIZE").toNat % 4294967296 % 4294967296 :=
          State.get_set_self ..
      _ = o.memorySize := by
        rw [hp.memorySize, BitVec.toNat_ofNat]
        omega

/-- Before an access through a register, `rcx` and `rdx` lead to the byte. -/
theorem exec_point (h : Holds im es s m) {i : UInt16} (hi : i.toNat < o.registerCount) :
    ∃ s', execOps im.symbol
        [.movzx .rax .dword (.mem (some .byte) (Cell.register i.toNat).terms) .byte,
         .binary .xor .dword (.reg .rdx .dword) (.reg .rdx .dword),
         .binary .mov .dword (.reg .rcx .dword) (.sym "MEMORY_SIZE"),
         .div .dword (.reg .rcx .dword), .lea .rcx [.sym "memory"]] s = some s' ∧
      Holds im es s' m ∧ s'.regs .rsp = s.regs .rsp ∧
      Leads im s' Cell.indexed.terms (m.pointed i) .memory := by
  have hbyte := (m.reg i).toNat_lt
  have hsize := ho.memorySize
  obtain ⟨t, ht, hholds, hrsp, hrax, hrdx, hrcx⟩ := exec_ready hp ho h hi
  let v := (m.reg i).toNat
  let d := o.memorySize
  let divided := ({ t with flags := .unknown }.set .rax .dword (v / d)).set .rdx .dword (v % d)
  let s' := divided.set .rcx .qword (address im.symbol divided.regs [.sym "memory"]).toNat
  have hdivided : (Op.div .dword (.reg .rcx .dword)).exec im.symbol t = some divided := by
    have hdivide := State.divide_of_get_eq_zero (s := t) (w := .dword) (d := d) (by decide)
      (by omega) hrdx
    rw [hrax] at hdivide
    show t.divide .dword (t.get .rcx .dword) = _
    rw [hrcx, hdivide]
  have hkept {r : X86.Reg} (hr : r ≠ .rax ∧ r ≠ .rcx ∧ r ≠ .rdx) : s'.regs r = t.regs r :=
    calc s'.regs r = divided.regs r := State.regs_set_of_ne _ _ _ hr.2.1
      _ = ({ t with flags := .unknown }.set .rax .dword (v / d)).regs r :=
        State.regs_set_of_ne _ _ _ hr.2.2
      _ = t.regs r := State.regs_set_of_ne _ _ _ hr.1
  have hrcx' : s'.regs .rcx = im.symbol "memory" :=
    (State.regs_set_qword ..).trans (address_sym ..)
  have hrdx' : s'.regs .rdx = BitVec.ofNat 64 (v % d) :=
    calc s'.regs .rdx = divided.regs .rdx := State.regs_set_of_ne _ _ _ (by decide)
      _ = BitVec.ofNat 64 (v % d % 4294967296) := State.regs_set_self ..
      _ = BitVec.ofNat 64 (v % d) := by
        have hle : v % d ≤ v := Nat.mod_le v d
        rw [Nat.mod_eq_of_lt (by omega)]
  refine ⟨s', ?_, hholds.scratch rfl (hkept (by decide)) rfl, (hkept (by decide)).trans hrsp,
    leads_indexed hrcx' hrdx'⟩
  have hops := execOps_append im.symbol
    [.movzx .rax .dword (.mem (some .byte) (Cell.register i.toNat).terms) .byte,
     .binary .xor .dword (.reg .rdx .dword) (.reg .rdx .dword),
     .binary .mov .dword (.reg .rcx .dword) (.sym "MEMORY_SIZE")]
    [.div .dword (.reg .rcx .dword), .lea .rcx [.sym "memory"]] s
  rw [ht, Option.bind_some, execOps_cons, hdivided] at hops
  exact hops

end Writes

/-! ## Blocks -/

/-- Instructions are read as these. -/
def Reads (is : List Instr) (xs : List X86.Instr) : Prop :=
  ∀ scope, (is.map Instr.element).mapM (elementInstr? scope) = some xs

theorem reads_nil : Reads [] [] := fun _ => rfl

theorem Reads.cons {i : Instr} {x : X86.Instr} {is : List Instr} {xs : List X86.Instr}
    (hi : ∀ scope, elementInstr? scope i.element = some x) (h : Reads is xs) :
    Reads (i :: is) (x :: xs) := by
  intro scope
  rw [List.map_cons, List.mapM_cons, hi, h]
  rfl

theorem Reads.append {is js : List Instr} {xs ys : List X86.Instr} (h : Reads is xs)
    (h' : Reads js ys) : Reads (is ++ js) (xs ++ ys) := by
  intro scope
  rw [List.map_append, List.mapM_append, h, h']
  rfl

/-- Instructions take the processor through to what follows them, and the machine that it holds to
    another one. -/
def Does (im : Image) (es : List Element) (stack : Region) (is : List Instr) (m m' : Machine o) :
    Prop :=
  ∀ (scope : String) (rest : List Element) (a : Word) (s : X86.State),
    im.Laid scope (is.map Instr.element ++ rest) a → Holds im es s m → Room stack s 32 →
    ∃ b s', im.Runs (a, s) (b, s') ∧ im.Laid scope rest b ∧ Holds im es s' m' ∧
      s'.regs .rsp = s.regs .rsp

section Blocks

variable {im : Image} {es : List Element} {stack : Region} {n : Nat} {m m' m'' : Machine o}

theorem Does.append {is js : List Instr} (h : Does im es stack is m m')
    (h' : Does im es stack js m' m'') : Does im es stack (is ++ js) m m'' := by
  intro scope rest a s hlaid hholds hroom
  rw [List.map_append, List.append_assoc] at hlaid
  obtain ⟨b, t, hruns, hlaid, hholds, hrsp⟩ := h _ _ _ _ hlaid hholds hroom
  obtain ⟨c, u, hruns', hlaid, hholds, hrsp'⟩ :=
    h' _ _ _ _ hlaid hholds (hroom.mono hrsp (Nat.le_refl _))
  exact ⟨c, u, hruns.trans hruns', hlaid, hholds, hrsp'.trans hrsp⟩

/-- Instructions that go on behind themselves. -/
theorem does_ops {is : List Instr} (x : Op) (xs : List Op) (hread : Reads is ((x :: xs).map .op))
    (hexec : ∀ s, Holds im es s m → ∃ s', execOps im.symbol (x :: xs) s = some s' ∧
      Holds im es s' m' ∧ s'.regs .rsp = s.regs .rsp) : Does im es stack is m m' := by
  intro scope rest a s hlaid hholds _
  obtain ⟨s', hs', hholds', hrsp⟩ := hexec s hholds
  obtain ⟨b, hcode, hlaid'⟩ := hlaid.code (hread scope)
  exact ⟨b, s', Image.runs_ops hcode hs', hlaid', hholds', hrsp⟩

theorem reads_throughAl {op : BinaryOp} {op' : X86.BinaryOp}
    (hop : binaryOps.lookup op.written = some op') (load store : Cell) :
    Reads (throughAl (.cell load) op (.cell store))
      [.op (.binary .mov .byte (.reg .rax .byte) (.mem none load.terms)),
       .op (.binary op' .byte (.mem none store.terms) (.reg .rax .byte))] := by
  have hstore : ofOperandPair op.written (Arg.cell store).x86 (Arg.reg .al).x86 =
      some (.op (.binary op' .byte (.mem none store.terms) (.reg .rax .byte))) := by
    unfold ofOperandPair
    rw [hop]
    rfl
  exact .cons (fun _ => read_binary rfl) (.cons (fun _ => read_binary hstore) reads_nil)

theorem does_nop : Does im es stack [.nop] m m :=
  does_ops .nop [] (.cons (fun _ => read_nop) reads_nil) fun s h => ⟨s, rfl, h, rfl⟩

variable (hp : Placed im es stack o n) (ho : o.Valid)

include hp ho

theorem does_throughAl {op : BinaryOp} {op' : X86.BinaryOp}
    (hop : binaryOps.lookup op.written = some op') (hkeeps : op'.keeps = true) {load store : Cell}
    {i j : Nat} {b d : Bank} (hl : ∀ s, Leads im s load.terms i b) (hi : i < o.bankSize b)
    (hl' : ∀ s, Leads im s store.terms j d) (hj : j < o.bankSize d) :
    Does im es stack (throughAl (.cell load) op (.cell store)) m
      (m.write j (UInt8.ofNat (op'.result .byte (m.toBytes.byte j d).toNat
        (m.toBytes.byte i b).toNat)) d) :=
  does_ops _ [_] (reads_throughAl hop load store) fun s h =>
    exec_throughAl hp ho h op' hkeeps (hl s) hi (hl' s) hj

/-- A register is combined with a number. -/
theorem does_immediate {op : BinaryOp} {op' : X86.BinaryOp} {f : UInt8 → UInt8} {k : Nat}
    (hop : binaryOps.lookup op.written = some op') (hkeeps : op'.keeps = true)
    (hf : ∀ x : UInt8, UInt8.ofNat (op'.result .byte x.toNat k) = f x) {i : UInt16}
    (hi : i.toNat < o.registerCount) (hk : k ≤ 255) :
    Does im es stack [.binary op (byteReg i) (.num k)] m (m.setReg i (f (m.reg i))) := by
  rw [← hf]
  have hread : ofOperandPair op.written (byteReg i).x86 (Arg.num k).x86 =
      some (.op (.binary op' .byte (byteReg i).x86 (.num k))) := by
    unfold ofOperandPair
    rw [hop]
    rfl
  refine does_ops _ [] (.cons (fun _ => read_binary hread) reads_nil) fun s h => ?_
  have hvalue : (X86.Operand.num k).value im.symbol s .byte = k := by
    show ((k : Int) % 256).toNat = k
    omega
  obtain ⟨s', hs', hholds, hregs, -⟩ := exec_binary hp ho h op' hkeeps (w := some .byte)
    (leads_register i.toNat) hi (.num k)
  rw [hvalue] at hholds
  refine ⟨s', ?_, hholds, by rw [hregs]⟩
  rw [execOps_cons]
  show (Op.exec _ _ (.binary op' .byte (.mem (some .byte) _) _)).bind _ = _
  rw [hs']
  rfl

/-- A register is changed by itself. -/
theorem does_unary {op : UnaryOp} {op' : X86.UnaryOp} {f : UInt8 → UInt8}
    (hop : unaryOps.lookup op.written = some op')
    (hf : ∀ x : UInt8, UInt8.ofNat (op'.result .byte x.toNat) = f x) {i : UInt16}
    (hi : i.toNat < o.registerCount) :
    Does im es stack [.unary op (byteReg i)] m (m.setReg i (f (m.reg i))) := by
  rw [← hf]
  have hread (scope : String) : ofOperand scope op.written (byteReg i).x86 =
      some (.op (.unary op' .byte (byteReg i).x86)) := by
    have hdiv : op.written ≠ "div" := by
      intro heq
      have hnone : unaryOps.lookup "div" = none := by decide +kernel
      rw [heq, hnone] at hop
      cases hop
    have hjmp : ¬ (op.written = "jmp" ∧ (some Width.byte) = none) := fun h => by cases h.2
    show (if op.written = "jmp" ∧ (some Width.byte) = none then _ else if op.written = "div" then _
      else _) = _
    rw [if_neg hjmp, if_neg hdiv, Option.bind_some, hop]
    rfl
  refine does_ops _ [] (.cons (fun _ => read_unary (hread _)) reads_nil) fun s h => ?_
  obtain ⟨s', hs', hholds, hregs⟩ := exec_unary hp ho h op' (w := some .byte)
    (leads_register i.toNat) hi
  refine ⟨s', ?_, hholds, by rw [hregs]⟩
  rw [execOps_cons]
  show (Op.exec _ _ (.unary op' .byte (.mem (some .byte) _))).bind _ = _
  rw [hs']
  rfl

omit hp ho in
theorem reads_point (i : UInt16) : Reads (point i)
    [.op (.movzx .rax .dword (.mem (some .byte) (Cell.register i.toNat).terms) .byte),
     .op (.binary .xor .dword (.reg .rdx .dword) (.reg .rdx .dword)),
     .op (.binary .mov .dword (.reg .rcx .dword) (.sym "MEMORY_SIZE")),
     .op (.div .dword (.reg .rcx .dword)), .op (.lea .rcx [.sym "memory"])] :=
  .cons (fun _ => read_binary rfl) <| .cons (fun _ => read_binary rfl) <|
    .cons (fun _ => read_binary rfl) <| .cons (fun _ => read_unary rfl) <|
    .cons (fun _ => read_binary rfl) reads_nil

/-- A block that moves a byte, one of the places being that which a register points to. -/
theorem does_pointed {p : UInt16} (hpoint : p.toNat < o.registerCount) {load store : Cell} {i j : Nat}
    {b d : Bank}
    (hl : ∀ s, Leads im s Cell.indexed.terms (m.pointed p) .memory → Leads im s load.terms i b)
    (hi : i < o.bankSize b)
    (hl' : ∀ s, Leads im s Cell.indexed.terms (m.pointed p) .memory → Leads im s store.terms j d)
    (hj : j < o.bankSize d) :
    Does im es stack (point p ++ throughAl (.cell load) .mov (.cell store)) m
      (m.write j (m.toBytes.byte i b) d) := by
  refine does_ops _ [_, _, _, _, _, _] ((reads_point p).append (reads_throughAl rfl load store))
    fun s h => ?_
  obtain ⟨t, ht, hholds, hrsp, hleads⟩ := exec_point hp ho h hpoint
  obtain ⟨s', hs', hholds', hrsp'⟩ := exec_throughAl hp ho hholds .mov rfl (hl t hleads) hi
    (hl' t hleads) hj
  have hbyte : UInt8.ofNat (X86.BinaryOp.mov.result .byte (m.toBytes.byte j d).toNat
      (m.toBytes.byte i b).toNat) = m.toBytes.byte i b := UInt8.ofNat_toNat
  rw [hbyte] at hholds'
  refine ⟨s', ?_, hholds', hrsp'.trans hrsp⟩
  have hops := execOps_append im.symbol
    [.movzx .rax .dword (.mem (some .byte) (Cell.register p.toNat).terms) .byte,
     .binary .xor .dword (.reg .rdx .dword) (.reg .rdx .dword),
     .binary .mov .dword (.reg .rcx .dword) (.sym "MEMORY_SIZE"),
     .div .dword (.reg .rcx .dword), .lea .rcx [.sym "memory"]]
    [.binary .mov .byte (.reg .rax .byte) (.mem none load.terms),
     .binary .mov .byte (.mem none store.terms) (.reg .rax .byte)] s
  rwa [ht, Option.bind_some, hs'] at hops

/-- A byte is moved. -/
theorem does_move {load store : Cell} {i j : Nat} {b d : Bank}
    (hl : ∀ s, Leads im s load.terms i b) (hi : i < o.bankSize b)
    (hl' : ∀ s, Leads im s store.terms j d) (hj : j < o.bankSize d) :
    Does im es stack (throughAl (.cell load) .mov (.cell store)) m
      (m.write j (m.toBytes.byte i b) d) := by
  have hbyte : UInt8.ofNat (X86.BinaryOp.mov.result .byte (m.toBytes.byte j d).toNat
      (m.toBytes.byte i b).toNat) = m.toBytes.byte i b := UInt8.ofNat_toNat
  rw [← hbyte]
  exact does_throughAl hp ho rfl rfl hl hi hl' hj

/-- Two registers are combined. -/
theorem does_registers {op : BinaryOp} {op' : X86.BinaryOp} {f : UInt8 → UInt8 → UInt8}
    (hop : binaryOps.lookup op.written = some op') (hkeeps : op'.keeps = true)
    (hf : ∀ x y : UInt8, UInt8.ofNat (op'.result .byte x.toNat y.toNat) = f x y) {i j : UInt16}
    (hi : i.toNat < o.registerCount) (hj : j.toNat < o.registerCount) :
    Does im es stack (throughAl (reg j) op (reg i)) m (m.setReg i (f (m.reg i) (m.reg j))) := by
  rw [← hf]
  exact does_throughAl hp ho hop hkeeps (fun _ => leads_register j.toNat) hj
    (fun _ => leads_register i.toNat) hi

/-- A register is combined with the number of an instruction. -/
theorem does_number {op : BinaryOp} {op' : X86.BinaryOp} {f : UInt8 → UInt8 → UInt8}
    (hop : binaryOps.lookup op.written = some op') (hkeeps : op'.keeps = true)
    (hf : ∀ x y : UInt8, UInt8.ofNat (op'.result .byte x.toNat y.toNat) = f x y) {i j : UInt16}
    (hi : i.toNat < o.registerCount) (hj : j.toNat ≤ 255) :
    Does im es stack [.binary op (byteReg i) (.num j.toNat)] m
      (m.setReg i (f (m.reg i) j.toUInt8)) := by
  have hbyte : j.toUInt8.toNat = j.toNat := Nat.mod_eq_of_lt (by omega)
  have hf' (x : UInt8) : UInt8.ofNat (op'.result .byte x.toNat j.toNat) = f x j.toUInt8 := by
    rw [← hf, hbyte]
  exact does_immediate (f := (f · j.toUInt8)) hp ho hop hkeeps hf' hi hj

end Blocks

end Nasm

end MacroAsm
