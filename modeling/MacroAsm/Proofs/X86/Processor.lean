import MacroAsm.Proofs.X86.Memory
import Mathlib.Data.BitVec
import Mathlib.Logic.Function.Basic
import Mathlib.Logic.Relation

set_option autoImplicit false

/-! # An x86-64 processor

What the instructions do that output for an assembler is made of: what they leave in registers, in
memory and in the flags, and where they go on. Operands are numbers below the modulus of a width.
A write of 32 bits clears the upper half of a register, one of 8 bits leaves the rest of it.

A flag that is not known is `none`, and a jump that asks for it has no meaning; nor has a division by
zero, or one with a quotient that does not fit. -/

namespace MacroAsm

namespace X86

/-! ## Instructions -/

/-- Registers. -/
inductive Reg where
  | rax | rbx | rcx | rdx | rsi | rdi | rbp | rsp | r12 | r13
  deriving DecidableEq, Repr

/-- How much of a register, or how many bytes, an operand is. -/
inductive Width where
  | byte
  | dword
  | qword
  deriving DecidableEq, Repr

/-- The number of bytes. -/
def Width.bytes : Width → Nat
  | .byte => 1
  | .dword => 4
  | .qword => 8

/-- The numbers of a width are those below this one. -/
def Width.modulus (w : Width) : Nat :=
  256 ^ w.bytes

/-- What an address is the sum of. -/
inductive Term where
  | sym (name : String)
  | reg (r : Reg) (scale : Nat)
  | num (n : Nat)
  deriving DecidableEq, Repr

/-- What an instruction works on; a place in memory may say its width. -/
inductive Operand where
  | reg (r : Reg) (w : Width)
  | mem (w : Option Width) (address : List Term)
  | num (i : Int)
  | sym (name : String)
  deriving DecidableEq, Repr

/-- Operations on two things. -/
inductive BinaryOp where
  | mov | add | sub | and | or | xor | shl | shr | cmp | test
  deriving DecidableEq, Repr

/-- Operations on one thing. -/
inductive UnaryOp where
  | not
  | inc
  | dec
  deriving DecidableEq, Repr

/-- When a jump is taken. -/
inductive Condition where
  | always
  | equal
  | notEqual
  | below
  | notBelow
  deriving DecidableEq, Repr

/-- Instructions that go on behind themselves. -/
inductive Op where
  | nop
  | binary (op : BinaryOp) (w : Width) (dest source : Operand)
  | unary (op : UnaryOp) (w : Width) (dest : Operand)
  | div (w : Width) (divisor : Operand)
  | movzx (r : Reg) (w : Width) (source : Operand) (narrow : Width)
  | lea (r : Reg) (address : List Term)
  | push (r : Reg)
  | pop (r : Reg)
  deriving DecidableEq, Repr

/-- Instructions. -/
inductive Instr where
  | op (o : Op)
  | jump (c : Condition) (target : String)
  | jumpThrough (address : List Term)
  | call (target : String)
  | callLinked (name : String)
  | ret
  deriving DecidableEq, Repr

/-! ## States -/

/-- The flags that jumps ask for. -/
structure Flags where
  zero : Option Bool
  carry : Option Bool
  deriving DecidableEq

/-- Flags of which nothing is known. -/
def Flags.unknown : Flags := ⟨none, none⟩

/-- What the processor has at hand, and what was printed. -/
structure State where
  regs : Reg → Word
  mem : Memory
  flags : Flags
  output : String

namespace State

/-- What an operand of a width finds in a register. -/
def get (s : State) (r : Reg) (w : Width) : Nat :=
  (s.regs r).toNat % w.modulus

/-- A register after a write into it. -/
def merge (old : Word) (v : Nat) : Width → Word
  | .byte => BitVec.ofNat 64 (old.toNat / 256 * 256 + v % 256)
  | .dword => BitVec.ofNat 64 (v % Width.dword.modulus)
  | .qword => BitVec.ofNat 64 v

def set (s : State) (r : Reg) (w : Width) (v : Nat) : State :=
  { s with regs := Function.update s.regs r (merge (s.regs r) v w) }

/-- Put a number on the processor's own stack, which grows down. -/
def push (s : State) (v : Word) : State :=
  { s with
    regs := Function.update s.regs .rsp (s.regs .rsp - 8)
    mem := store s.mem (s.regs .rsp - 8) 8 v.toNat }

/-- The number on top of that stack. -/
def top (s : State) : Word :=
  BitVec.ofNat 64 (load s.mem (s.regs .rsp) 8)

/-- Take it from the stack. -/
def drop (s : State) : State :=
  { s with regs := Function.update s.regs .rsp (s.regs .rsp + 8) }

section Simp

variable (s : State) (r : Reg) (w : Width) (v : Nat)

@[simp] theorem rsp_push (x : Word) : (s.push x).regs .rsp = s.regs .rsp - 8 := by
  simp [push]

@[simp] theorem rsp_drop : s.drop.regs .rsp = s.regs .rsp + 8 := by
  simp [drop]

variable {r}

theorem regs_set_of_ne {r' : Reg} (h : r' ≠ r) : (s.set r w v).regs r' = s.regs r' :=
  Function.update_of_ne h ..

theorem regs_push_of_ne (h : r ≠ .rsp) (x : Word) : (s.push x).regs r = s.regs r :=
  Function.update_of_ne h ..

theorem regs_drop_of_ne (h : r ≠ .rsp) : s.drop.regs r = s.regs r :=
  Function.update_of_ne h ..

theorem get_set_of_ne {r' : Reg} (h : r' ≠ r) (w' : Width) :
    (s.set r w v).get r' w' = s.get r' w' := by
  rw [get, get, regs_set_of_ne s w v h]

variable (r)

theorem regs_set_self : (s.set r w v).regs r = merge (s.regs r) v w :=
  Function.update_self ..

theorem regs_set_qword (v : Word) : (s.set r .qword v.toNat).regs r = v := by
  rw [regs_set_self, merge, BitVec.ofNat_toNat, BitVec.setWidth_eq]

/-- A write is read again at the same width. -/
@[simp] theorem get_set_self : (s.set r w v).get r w = v % w.modulus := by
  rw [get, regs_set_self]
  cases w with
  | byte =>
    show (BitVec.ofNat 64 _).toNat % 256 = v % 256
    rw [BitVec.toNat_ofNat]
    omega
  | dword =>
    show (BitVec.ofNat 64 (v % 4294967296)).toNat % 4294967296 = v % 4294967296
    rw [BitVec.toNat_ofNat]
    omega
  | qword =>
    show (BitVec.ofNat 64 v).toNat % 18446744073709551616 = v % 18446744073709551616
    rw [BitVec.toNat_ofNat]
    omega

end Simp

end State

/-! ## Operands -/

/-- The number of a byte shift and of the wider ones. -/
def Width.shiftModulus : Width → Nat
  | .qword => 64
  | _ => 32

section Operands

variable (symbol : String → Word) (s : State)

/-- What a part of an address stands for. -/
def Term.value (regs : Reg → Word) : Term → Word
  | .sym name => symbol name
  | .reg r scale => regs r * BitVec.ofNat 64 scale
  | .num n => BitVec.ofNat 64 n

/-- An address. -/
def address (regs : Reg → Word) (ts : List Term) : Word :=
  (ts.map (Term.value symbol regs)).sum

/-- The number that an operand stands for at a width. -/
def Operand.value (w : Width) : Operand → Nat
  | .reg r _ => s.get r w
  | .mem _ ts => load s.mem (address symbol s.regs ts) w.bytes
  | .num i => (i % w.modulus).toNat
  | .sym name => (symbol name).toNat % w.modulus

/-- Put a number where an operand is, if it is a place. -/
def Operand.assign (w : Width) (v : Nat) : Operand → Option State
  | .reg r _ => some (s.set r w v)
  | .mem _ ts => some { s with mem := store s.mem (address symbol s.regs ts) w.bytes v }
  | .num _ => none
  | .sym _ => none

theorem address_sym (regs : Reg → Word) (name : String) :
    address symbol regs [.sym name] = symbol name := by
  simp [address, Term.value]

theorem address_sym_num (regs : Reg → Word) (name : String) (i : Nat) :
    address symbol regs [.sym name, .num i] = offset (symbol name) i := by
  simp [address, Term.value, offset]

theorem address_reg_reg (regs : Reg → Word) (q r : Reg) (scale : Nat) :
    address symbol regs [.reg q 1, .reg r scale] =
      regs q + regs r * BitVec.ofNat 64 scale := by
  simp [address, Term.value]

end Operands

/-! ## Operations -/

/-- What is made of two numbers. -/
def BinaryOp.result (w : Width) (x y : Nat) : BinaryOp → Nat
  | .mov => y
  | .add => (x + y) % w.modulus
  | .sub | .cmp => (x + w.modulus - y) % w.modulus
  | .and | .test => x &&& y
  | .or => x ||| y
  | .xor => x ^^^ y
  | .shl => x * 2 ^ (y % w.shiftModulus) % w.modulus
  | .shr => x / 2 ^ (y % w.shiftModulus)

/-- The flags behind an operation on two numbers. The carry of a shift is left open. -/
def BinaryOp.flags (w : Width) (x y : Nat) (old : Flags) (op : BinaryOp) : Flags :=
  let zero := op.result w x y == 0
  match op with
  | .mov => old
  | .add => ⟨zero, decide (w.modulus ≤ x + y)⟩
  | .sub | .cmp => ⟨zero, decide (x < y)⟩
  | .and | .or | .xor | .test => ⟨zero, false⟩
  | .shl | .shr => if y % w.shiftModulus = 0 then old else ⟨zero, none⟩

/-- Whether the result is kept. -/
def BinaryOp.keeps : BinaryOp → Bool
  | .cmp | .test => false
  | _ => true

/-- What is made of a number. -/
def UnaryOp.result (w : Width) (x : Nat) : UnaryOp → Nat
  | .not => w.modulus - 1 - x
  | .inc => (x + 1) % w.modulus
  | .dec => (x + w.modulus - 1) % w.modulus

/-- The flags behind an operation on one number. -/
def UnaryOp.flags (w : Width) (x : Nat) (old : Flags) : UnaryOp → Flags
  | .not => old
  | .inc => { old with zero := UnaryOp.inc.result w x == 0 }
  | .dec => { old with zero := UnaryOp.dec.result w x == 0 }

/-- Whether a jump is taken, if that is known. -/
def Condition.holds? (f : Flags) : Condition → Option Bool
  | .always => some true
  | .equal => f.zero
  | .notEqual => f.zero.map (!·)
  | .below => f.carry
  | .notBelow => f.carry.map (!·)

/-- Divide `rdx` and `rax`, taken together. The byte form, which divides another pair, is left out. -/
def State.divide (s : State) (w : Width) (d : Nat) : Option State :=
  let n := s.get .rdx w * w.modulus + s.get .rax w
  if w = .byte ∨ d = 0 ∨ w.modulus ≤ n / d then none
  else some ({ s with flags := .unknown }.set .rax w (n / d) |>.set .rdx w (n % d))

/-- A division of what fits one register. -/
theorem State.divide_of_get_eq_zero {s : State} {w : Width} {d : Nat} (hw : w ≠ .byte)
    (hd : d ≠ 0) (h : s.get .rdx w = 0) :
    s.divide w d = some ({ s with flags := .unknown }.set .rax w (s.get .rax w / d)
      |>.set .rdx w (s.get .rax w % d)) := by
  have hmodulus : 0 < w.modulus := Nat.pow_pos (by decide)
  have hlt : s.get .rax w < w.modulus := Nat.mod_lt _ hmodulus
  have hquotient : s.get .rax w / d ≤ s.get .rax w := Nat.div_le_self ..
  have hfits : ¬ (w = .byte ∨ d = 0 ∨ w.modulus ≤ s.get .rax w / d) := by
    simp only [hw, hd, false_or]
    omega
  rw [State.divide]
  simp only [h, Nat.zero_mul, Nat.zero_add]
  rw [if_neg hfits]

/-- What an instruction does that goes on behind itself. -/
def Op.exec (symbol : String → Word) (s : State) : Op → Option State
  | .nop => some s
  | .binary op w dest source =>
    let x := dest.value symbol s w
    let y := source.value symbol s w
    let s' := { s with flags := op.flags w x y s.flags }
    if op.keeps then dest.assign symbol s' w (op.result w x y) else some s'
  | .unary op w dest =>
    let x := dest.value symbol s w
    dest.assign symbol { s with flags := op.flags w x s.flags } w (op.result w x)
  | .div w divisor => s.divide w (divisor.value symbol s w)
  | .movzx r w source narrow => some (s.set r w (source.value symbol s narrow))
  | .lea r ts => some (s.set r .qword (address symbol s.regs ts).toNat)
  | .push r => some (s.push (s.regs r))
  | .pop r => some (s.drop.set r .qword s.top.toNat)

/-- An operation on a register. -/
theorem exec_register {symbol : String → Word} {s : State} {op : BinaryOp} (hop : op.keeps = true)
    {r : Reg} {w w' : Width} {source : Operand} {x y : Nat} (hx : s.get r w = x)
    (hy : source.value symbol s w = y) :
    (Op.binary op w (.reg r w') source).exec symbol s =
      some ({ s with flags := op.flags w x y s.flags }.set r w (op.result w x y)) := by
  have hx' : (Operand.reg r w').value symbol s w = x := hx
  simp only [Op.exec, hx', hy, hop, if_true, Operand.assign]

/-- What instructions do one after the other. -/
def execOps (symbol : String → Word) (os : List Op) (s : State) : Option State :=
  os.foldlM (fun s o => o.exec symbol s) s

@[simp] theorem execOps_cons (symbol : String → Word) (o : Op) (os : List Op) (s : State) :
    execOps symbol (o :: os) s = (o.exec symbol s).bind (execOps symbol os) := rfl

theorem execOps_append (symbol : String → Word) (os ps : List Op) (s : State) :
    execOps symbol (os ++ ps) s = (execOps symbol os s).bind (execOps symbol ps) :=
  List.foldlM_append

/-! ## Steps -/

/-- A program in memory: the instruction at an address with the address behind it, what the names stand
    for, and what linked functions do from their call to their return. -/
structure Image where
  code : Word → Option (Instr × Word)
  symbol : String → Word
  linked : String → State → State

namespace Image

variable (im : Image)

/-- What an instruction does and where it goes on, given the address behind it. -/
def follow (next : Word) (s : State) : Instr → Option (Word × State)
  | .op o => (o.exec im.symbol s).map fun s' => (next, s')
  | .jump c target =>
    (c.holds? s.flags).map fun taken => (if taken then im.symbol target else next, s)
  | .jumpThrough ts => some (BitVec.ofNat 64 (load s.mem (address im.symbol s.regs ts) 8), s)
  | .call target => some (im.symbol target, s.push next)
  | .callLinked name => some (next, im.linked name s)
  | .ret => some (s.top, s.drop)

/-- One instruction. -/
def step (c : Word × State) : Option (Word × State) :=
  (im.code c.1).bind fun x => im.follow x.2 c.2 x.1

/-- One or more instructions lead from a place and a state to others. -/
def Runs : Word × State → Word × State → Prop :=
  Relation.TransGen fun c c' => im.step c = some c'

/-- Some instructions, or none, do. -/
def Goes : Word × State → Word × State → Prop :=
  Relation.ReflTransGen fun c c' => im.step c = some c'

/-- Instructions stand one behind the other from one address to another. -/
def Code : List Instr → Word → Word → Prop
  | [], a, b => a = b
  | i :: is, a, b => ∃ next, im.code a = some (i, next) ∧ Code is next b

variable {im}

theorem code_append {is js : List Instr} {a b : Word} :
    im.Code (is ++ js) a b ↔ ∃ c, im.Code is a c ∧ im.Code js c b := by
  induction is generalizing a with
  | nil => exact ⟨fun h => ⟨a, rfl, h⟩, fun ⟨_, heq, h⟩ => heq ▸ h⟩
  | cons i is ih =>
    constructor
    · rintro ⟨next, hi, h⟩
      obtain ⟨c, his, hjs⟩ := ih.1 h
      exact ⟨c, ⟨next, hi, his⟩, hjs⟩
    · rintro ⟨c, ⟨next, hi, his⟩, hjs⟩
      exact ⟨next, hi, ih.2 ⟨c, his, hjs⟩⟩

theorem code_singleton {i : Instr} {a b : Word} :
    im.Code [i] a b ↔ im.code a = some (i, b) :=
  ⟨fun ⟨_, h, heq⟩ => heq ▸ h, fun h => ⟨b, h, rfl⟩⟩

section Runs

variable {a b : Word} {s s' : State}

/-- One instruction that stands where the processor is. -/
theorem runs_follow {i : Instr} {c : Word × State} (h : im.code a = some (i, b))
    (hi : im.follow b s i = some c) : im.Runs (a, s) c :=
  .single (by rw [step, h]; exact hi)

theorem Runs.trans {c₁ c₂ c₃ : Word × State} (h : im.Runs c₁ c₂) (h' : im.Runs c₂ c₃) :
    im.Runs c₁ c₃ :=
  Relation.TransGen.trans h h'

theorem Runs.goes {c₁ c₂ : Word × State} (h : im.Runs c₁ c₂) : im.Goes c₁ c₂ :=
  Relation.TransGen.to_reflTransGen h

theorem Runs.trans_goes {c₁ c₂ c₃ : Word × State} (h : im.Runs c₁ c₂) (h' : im.Goes c₂ c₃) :
    im.Runs c₁ c₃ :=
  Relation.TransGen.trans_left h h'

theorem Goes.trans {c₁ c₂ c₃ : Word × State} (h : im.Goes c₁ c₂) (h' : im.Goes c₂ c₃) :
    im.Goes c₁ c₃ :=
  Relation.ReflTransGen.trans h h'

theorem runs_op {o : Op} (h : im.Code [.op o] a b) (hexec : o.exec im.symbol s = some s') :
    im.Runs (a, s) (b, s') :=
  runs_follow (code_singleton.1 h) (by rw [follow, hexec, Option.map_some])

/-- Instructions that go on behind themselves are executed one after the other. -/
theorem runs_ops {o : Op} {os : List Op} (h : im.Code ((o :: os).map .op) a b)
    (hexec : execOps im.symbol (o :: os) s = some s') : im.Runs (a, s) (b, s') := by
  induction os generalizing o a s with
  | nil =>
    rw [execOps_cons] at hexec
    obtain ⟨t, ht, heq⟩ := Option.bind_eq_some_iff.1 hexec
    obtain rfl := Option.some.inj heq
    exact runs_op h ht
  | cons o' os ih =>
    obtain ⟨next, hcode, hrest⟩ := h
    rw [execOps_cons] at hexec
    obtain ⟨t, ht, hexec⟩ := Option.bind_eq_some_iff.1 hexec
    exact (runs_op (code_singleton.2 hcode) ht).trans (ih hrest hexec)

theorem runs_taken {c : Condition} {target : String} (h : im.Code [.jump c target] a b)
    (hc : c.holds? s.flags = some true) : im.Runs (a, s) (im.symbol target, s) :=
  runs_follow (code_singleton.1 h) (by rw [follow, hc, Option.map_some, if_pos rfl])

theorem runs_notTaken {c : Condition} {target : String} (h : im.Code [.jump c target] a b)
    (hc : c.holds? s.flags = some false) : im.Runs (a, s) (b, s) :=
  runs_follow (code_singleton.1 h)
    (by rw [follow, hc, Option.map_some, if_neg Bool.false_ne_true])

theorem runs_jumpThrough {ts : List Term} (h : im.Code [.jumpThrough ts] a b) :
    im.Runs (a, s) (BitVec.ofNat 64 (load s.mem (address im.symbol s.regs ts) 8), s) :=
  runs_follow (code_singleton.1 h) rfl

theorem runs_call {target : String} (h : im.Code [.call target] a b) :
    im.Runs (a, s) (im.symbol target, s.push b) :=
  runs_follow (code_singleton.1 h) rfl

theorem runs_callLinked {name : String} (h : im.Code [.callLinked name] a b) :
    im.Runs (a, s) (b, im.linked name s) :=
  runs_follow (code_singleton.1 h) rfl

theorem runs_ret (h : im.Code [.ret] a b) : im.Runs (a, s) (s.top, s.drop) :=
  runs_follow (code_singleton.1 h) rfl

end Runs

end Image

end X86

end MacroAsm
