import Mathlib.Algebra.Group.Nat.Defs
import MacroAsm.Proofs.Compilation.Instructions
import MacroAsm.Proofs.Target.CMeaning

set_option autoImplicit false

/-! # Statements of an instruction

The statements that an instruction becomes do to the variables what the instruction does to the machine
(`CFamily.execAll_stmts`). Each of them is one of a few: a register gets a value, a byte is pushed or
taken from the stack, the loop goes on somewhere else. -/

namespace MacroAsm

/-! ## Machines whose stack pointer is on the stack -/

namespace Machine

variable {o : Options} {m : Machine o}

theorem sp_push_lt (h : m.sp < o.stackSize) (v : UInt8) : (m.push v).sp < o.stackSize := by
  show (if m.sp + 1 = o.stackSize then 0 else m.sp + 1) < o.stackSize
  split <;> omega

theorem sp_lower_lt (h : m.sp < o.stackSize) : m.lower.sp < o.stackSize := by
  show (if m.sp = 0 then o.stackSize - 1 else m.sp - 1) < o.stackSize
  split <;> omega

/-- A register points to a place in memory. -/
theorem pointed_lt (m : Machine o) (ho : o.Valid) (i : UInt16) : m.pointed i < o.memorySize :=
  Nat.mod_lt _ ho.memorySize.1

/-- The variables of the loop that stand for a machine. -/
def store (m : Machine o) : CFamily.Store o where
  toBytes := m.toBytes
  pc := m.pc
  sp := m.sp
  running := if m.running then 1 else 0
  output := m.output

end Machine

namespace CFamily

variable {o : Options} {m : Machine o}

/-! ## Values -/

theorem inInt_natCast {n : Nat} (h : n ≤ 2147483647) : inInt (n : Int) = some (n : Int) := by
  rw [inInt, if_pos (by omega)]

theorem byteOf_natCast (n : Nat) : byteOf (n : Int) = UInt8.ofNat n := by
  rw [byteOf, ← UInt8.toNat_inj, UInt8.toNat_ofNat', UInt8.toNat_ofNat']
  omega

@[simp] theorem byteOf_toNat (x : UInt8) : byteOf (x.toNat : Int) = x := by
  rw [byteOf_natCast, UInt8.ofNat_toNat]

theorem at?_of_lt {n i : Nat} (bytes : Vector UInt8 n) (h : i < n) :
    at? bytes (i : Int) = some (bytes[i]?.getD 0) := by
  rw [at?, if_pos (by omega), Int.toNat_natCast, Vector.getElem?_eq_getElem h]
  rfl

theorem put?_of_lt {n i : Nat} (bytes : Vector UInt8 n) (v : UInt8) (h : i < n) :
    put? bytes (i : Int) v = some (bytes.setIfInBounds i v) := by
  rw [put?, if_pos (by omega), Int.toNat_natCast]

/-! ## Operators on numbers that are not negative -/

section Operators

variable {k l : Nat}

theorem apply_add (h : k + l ≤ 2147483647) :
    BinaryOp.add.apply (k : Int) (l : Int) = some ((k + l : Nat) : Int) := by
  rw [BinaryOp.apply, ← Int.natCast_add, inInt_natCast h]

theorem apply_sub (hl : l ≤ k) (hk : k ≤ 2147483647) :
    BinaryOp.sub.apply (k : Int) (l : Int) = some ((k - l : Nat) : Int) := by
  rw [BinaryOp.apply, ← Int.ofNat_sub hl, inInt_natCast (by omega)]

theorem apply_mod (hk : k ≤ 2147483647) (hl : 0 < l) :
    BinaryOp.mod.apply (k : Int) (l : Int) = some ((k % l : Nat) : Int) := by
  have hquotient : k / l ≤ 2147483647 := Nat.le_trans (Nat.div_le_self k l) hk
  rw [BinaryOp.apply, if_neg (by omega), ← Int.ofNat_tdiv, inInt_natCast hquotient,
    Option.map_some, ← Int.ofNat_tmod]

/-- The bits of a number without a sign. -/
theorem toNat_bits (hk : k < 2 ^ 31) : (bits (k : Int)).toNat = k := by
  rw [bits, BitVec.ofInt_natCast, BitVec.toNat_ofNat]
  omega

theorem toInt_of_lt {b : BitVec 32} (h : b.toNat < 2 ^ 31) : b.toInt = (b.toNat : Int) :=
  BitVec.toInt_eq_toNat_of_lt (by omega)

theorem apply_and (hk : k < 2 ^ 31) (hl : l < 2 ^ 31) :
    BinaryOp.and.apply (k : Int) (l : Int) = some ((k &&& l : Nat) : Int) := by
  have hbits : (bits (k : Int) &&& bits (l : Int)).toNat = k &&& l := by
    rw [BitVec.toNat_and, toNat_bits hk, toNat_bits hl]
  have hlt : k &&& l < 2 ^ 31 := Nat.and_lt_two_pow _ hl
  rw [BinaryOp.apply, toInt_of_lt (by rwa [hbits]), hbits]

theorem apply_or (hk : k < 2 ^ 31) (hl : l < 2 ^ 31) :
    BinaryOp.or.apply (k : Int) (l : Int) = some ((k ||| l : Nat) : Int) := by
  have hbits : (bits (k : Int) ||| bits (l : Int)).toNat = k ||| l := by
    rw [BitVec.toNat_or, toNat_bits hk, toNat_bits hl]
  have hlt : k ||| l < 2 ^ 31 := Nat.or_lt_two_pow hk hl
  rw [BinaryOp.apply, toInt_of_lt (by rwa [hbits]), hbits]

theorem apply_xor (hk : k < 2 ^ 31) (hl : l < 2 ^ 31) :
    BinaryOp.xor.apply (k : Int) (l : Int) = some ((k ^^^ l : Nat) : Int) := by
  have hbits : (bits (k : Int) ^^^ bits (l : Int)).toNat = k ^^^ l := by
    rw [BitVec.toNat_xor, toNat_bits hk, toNat_bits hl]
  have hlt : k ^^^ l < 2 ^ 31 := Nat.xor_lt_two_pow hk hl
  rw [BinaryOp.apply, toInt_of_lt (by rwa [hbits]), hbits]

theorem apply_shl (hl : l < 32) (h : k * 2 ^ l ≤ 2147483647) :
    BinaryOp.shl.apply (k : Int) (l : Int) = some ((k * 2 ^ l : Nat) : Int) := by
  have hcast : (k : Int) * 2 ^ l = ((k * 2 ^ l : Nat) : Int) := by
    rw [Int.natCast_mul, Int.natCast_pow]
    rfl
  rw [BinaryOp.apply, if_pos (by omega), Int.toNat_natCast, hcast, inInt_natCast h]

theorem apply_shr (hl : l < 32) :
    BinaryOp.shr.apply (k : Int) (l : Int) = some ((k / 2 ^ l : Nat) : Int) := by
  have hcast : (k : Int) / 2 ^ l = ((k / 2 ^ l : Nat) : Int) := by
    rw [Int.natCast_ediv, Int.natCast_pow]
    rfl
  rw [BinaryOp.apply, if_pos (by omega), Int.toNat_natCast, hcast]

end Operators

/-! ## Operators on bytes -/

/-- An operator does to two bytes what an operation of the machine does. -/
def Computes (op : BinaryOp) (f : UInt8 → UInt8 → UInt8) (x y : UInt8) : Prop :=
  ∃ v, op.apply (x.toNat : Int) (y.toNat : Int) = some v ∧ byteOf v = f x y

section Bytes

variable (x y : UInt8)

/-- The result of an operator is a number whose last eight bits are those of the operation. -/
theorem computes_of_natCast {op : BinaryOp} {f : UInt8 → UInt8 → UInt8} {n : Nat}
    (happly : op.apply (x.toNat : Int) (y.toNat : Int) = some (n : Int))
    (hf : (f x y).toNat = n % 256) : Computes op f x y := by
  refine ⟨n, happly, ?_⟩
  rw [byteOf_natCast, ← UInt8.toNat_inj, UInt8.toNat_ofNat', hf]

theorem computes_add : Computes .add (· + ·) x y := by
  have hx := x.toNat_lt
  have hy := y.toNat_lt
  exact computes_of_natCast x y (apply_add (by omega)) (UInt8.toNat_add x y)

/-- A difference may be negative, and keeps its last eight bits. -/
theorem computes_sub : Computes .sub (· - ·) x y := by
  have hx := x.toNat_lt
  have hy := y.toNat_lt
  refine ⟨x.toNat - y.toNat, ?_, ?_⟩
  · rw [BinaryOp.apply, inInt, if_pos (by omega)]
  · rw [← UInt8.toNat_inj, UInt8.toNat_sub, byteOf, UInt8.toNat_ofNat']
    omega

theorem computes_and : Computes .and (· &&& ·) x y := by
  have hx := x.toNat_lt
  have hy := y.toNat_lt
  have hlt : x.toNat &&& y.toNat < 256 := Nat.and_lt_two_pow (n := 8) _ hy
  refine computes_of_natCast x y (apply_and (by omega) (by omega)) ?_
  rw [UInt8.toNat_and, Nat.mod_eq_of_lt hlt]

theorem computes_or : Computes .or (· ||| ·) x y := by
  have hx := x.toNat_lt
  have hy := y.toNat_lt
  have hlt : x.toNat ||| y.toNat < 256 := Nat.or_lt_two_pow (n := 8) hx hy
  refine computes_of_natCast x y (apply_or (by omega) (by omega)) ?_
  rw [UInt8.toNat_or, Nat.mod_eq_of_lt hlt]

theorem computes_xor : Computes .xor (· ^^^ ·) x y := by
  have hx := x.toNat_lt
  have hy := y.toNat_lt
  have hlt : x.toNat ^^^ y.toNat < 256 := Nat.xor_lt_two_pow (n := 8) hx hy
  refine computes_of_natCast x y (apply_xor (by omega) (by omega)) ?_
  rw [UInt8.toNat_xor, Nat.mod_eq_of_lt hlt]

theorem computes_shl : Computes .shl (· <<< ·) x 1 := by
  have hx := x.toNat_lt
  refine computes_of_natCast x 1 (apply_shl (by decide) ?_) ?_
  · show x.toNat * 2 ^ 1 ≤ _
    omega
  · rw [UInt8.toNat_shiftLeft]
    show x.toNat <<< 1 % 256 = x.toNat * 2 ^ 1 % 256
    rw [Nat.shiftLeft_eq]

theorem computes_shr : Computes .shr (· >>> ·) x 1 := by
  have hx := x.toNat_lt
  refine computes_of_natCast x 1 (apply_shr (by decide)) ?_
  rw [UInt8.toNat_shiftRight]
  show x.toNat >>> 1 = x.toNat / 2 ^ 1 % 256
  rw [Nat.shiftRight_eq_div_pow]
  omega

/-- The complement of a byte is negative, and its last eight bits are those of the complement. -/
theorem byteOf_complement : byteOf (-(x.toNat : Int) - 1) = ~~~x := by
  have hx := x.toNat_lt
  have hsize : UInt8.size = 256 := rfl
  rw [← UInt8.toNat_inj, UInt8.toNat_not, hsize, byteOf, UInt8.toNat_ofNat']
  omega

end Bytes

/-! ## Expressions -/

theorem eval_num {n : Nat} (s : Store o) (h : n ≤ 2147483647) :
    (Expr.num n).eval s = some (n : Int) :=
  inInt_natCast h

/-- A cell of an array whose index is in bounds. -/
theorem eval_cell {s : Store o} {bank : Bank} {index : Expr} {i : Int} {v : UInt8}
    (hindex : index.eval s = some i) (hcell : s.cell? i bank = some v) :
    (Expr.cell bank index).eval s = some (v.toNat : Int) := by
  rw [Expr.eval, hindex, Option.bind_some, hcell, Option.map_some]

theorem eval_binary {s : Store o} {op : BinaryOp} {l r : Expr} {x y : Int} (hl : l.eval s = some x)
    (hr : r.eval s = some y) : (Expr.binary op l r).eval s = op.apply x y := by
  rw [Expr.eval, hl, Option.bind_some, hr, Option.bind_some]

theorem eval_byte {s : Store o} {e : Expr} {v : Int} (he : e.eval s = some v) :
    (Expr.byte e).eval s = some ((byteOf v).toNat : Int) := by
  rw [Expr.eval, he, Option.map_some]

theorem eval_reg {i : UInt16} (h : i.toNat < o.registerCount) :
    (reg i).eval m.store = some ((m.reg i).toNat : Int) := by
  have hcount : i.toNat ≤ 2147483647 := by
    have hi := i.toNat_lt
    omega
  exact eval_cell (eval_num _ hcount) (at?_of_lt _ h)

theorem eval_memory {address : Expr} {i : Nat} (haddress : address.eval m.store = some (i : Int))
    (h : i < o.memorySize) :
    (Expr.cell .memory address).eval m.store = some ((m.byteAt i).toNat : Int) :=
  eval_cell haddress (at?_of_lt _ h)

theorem eval_pointed {i : UInt16} (ho : o.Valid) (h : i.toNat < o.registerCount) :
    (pointed i).eval m.store = some (m.pointed i : Int) := by
  have hsize := ho.memorySize
  have hv := (m.reg i).toNat_lt
  have hmemory : (Expr.size .memory).eval m.store = some (o.memorySize : Int) :=
    inInt_natCast (by omega)
  rw [pointed, eval_binary (eval_reg h) hmemory, apply_mod (by omega) (by omega)]
  rfl

theorem eval_stackSize (ho : o.Valid) (s : Store o) :
    (Expr.size .stack).eval s = some (o.stackSize : Int) := by
  have hsize := ho.stackSize
  exact inInt_natCast (by omega)

/-- After the stack pointer was moved down, the byte it left is on top. -/
theorem eval_top (hsp : m.sp < o.stackSize) :
    top.eval m.lower.store = some (m.top.toNat : Int) :=
  eval_cell rfl (at?_of_lt _ (Machine.sp_lower_lt hsp))

/-! ## Statements -/

@[simp] theorem execAll_nil (s : Store o) : execAll [] s = some s :=
  rfl

@[simp] theorem execAll_cons (x : Stmt) (ss : List Stmt) (s : Store o) :
    execAll (x :: ss) s = (x.exec s).bind (execAll ss) :=
  List.foldlM_cons

theorem execAll_append (ss rest : List Stmt) (s : Store o) :
    execAll (ss ++ rest) s = (execAll ss s).bind (execAll rest) :=
  List.foldlM_append

/-- A cell whose index is in bounds takes the byte that is left of a value. -/
theorem exec_assign_cell {s s' : Store o} {bank : Bank} {index e : Expr} {i v : Int}
    (hindex : index.eval s = some i) (he : e.eval s = some v)
    (hcell : s.setCell? i (byteOf v) bank = some s') :
    (Stmt.assign (.cell bank index) e).exec s = some s' := by
  rw [Stmt.exec, he, Option.bind_some, Place.assign, hindex, Option.bind_some, hcell]

theorem exec_assign_var {s : Store o} {x : Var} {e : Expr} {v : Int} (he : e.eval s = some v) :
    (Stmt.assign (.var x) e).exec s = some (s.setVar v x) := by
  rw [Stmt.exec, he, Option.bind_some, Place.assign]

theorem exec_setReg {i : UInt16} {e : Expr} {v : Int} (h : i.toNat < o.registerCount)
    (he : e.eval m.store = some v) :
    (setReg i e).exec m.store = some (m.setReg i (byteOf v)).store := by
  have hcount : i.toNat ≤ 2147483647 := by
    have hi := i.toNat_lt
    omega
  refine exec_assign_cell (eval_num _ hcount) he ?_
  rw [Store.setCell?, put?_of_lt _ _ h]
  rfl

theorem exec_setByte {address e : Expr} {i : Nat} {v : Int} (h : i < o.memorySize)
    (haddress : address.eval m.store = some (i : Int)) (he : e.eval m.store = some v) :
    (Stmt.assign (.cell .memory address) e).exec m.store =
      some (m.setByteAt i (byteOf v)).store := by
  refine exec_assign_cell haddress he ?_
  rw [Store.setCell?, put?_of_lt _ _ h]
  rfl

theorem exec_jump (target : UInt16) :
    (jump target).exec m.store = some (m.jump target).store := by
  have htarget := target.toNat_lt
  exact exec_assign_var (eval_num _ (by omega))

theorem execAll_load {a : UInt16} {e : Expr} {v : UInt8} (h : a.toNat < o.registerCount)
    (he : e.eval m.store = some (v.toNat : Int)) :
    execAll [setReg a e] m.store = some (m.setReg a v).store := by
  rw [execAll_cons, exec_setReg h he, byteOf_toNat]
  rfl

theorem execAll_save {b : UInt16} {address : Expr} {i : Nat} (hi : i < o.memorySize)
    (haddress : address.eval m.store = some (i : Int)) (h : b.toNat < o.registerCount) :
    execAll [.assign (.cell .memory address) (reg b)] m.store =
      some (m.setByteAt i (m.reg b)).store := by
  rw [execAll_cons, exec_setByte hi haddress (eval_reg h), byteOf_toNat]
  rfl

/-- A computation stores what the operation makes of the two bytes. -/
theorem execAll_compute {op : BinaryOp} {f : UInt8 → UInt8 → UInt8} {a : UInt16} {e : Expr}
    {x : UInt8} (h : a.toNat < o.registerCount) (he : e.eval m.store = some (x.toNat : Int))
    (hop : Computes op f (m.reg a) x) :
    execAll (compute op a e) m.store = some (m.setReg a (f (m.reg a) x)).store := by
  obtain ⟨v, happly, hv⟩ := hop
  have hbinary : (Expr.group (.binary op (reg a) e)).eval m.store = some v :=
    (eval_binary (eval_reg h) he).trans happly
  rw [compute, execAll_cons, exec_setReg h (eval_byte hbinary), byteOf_toNat, hv]
  rfl

/-- The stack pointer goes round: behind the last place comes the first. -/
theorem mod_eq_ite {k n : Nat} (h : k < n) : (k + 1) % n = if k + 1 = n then 0 else k + 1 := by
  split
  next hlast => rw [hlast, Nat.mod_self]
  next => exact Nat.mod_eq_of_lt (by omega)

theorem mod_eq_ite_sub {k n : Nat} (h : k < n) :
    (k + n - 1) % n = if k = 0 then n - 1 else k - 1 := by
  split
  next hfirst =>
    rw [hfirst, Nat.zero_add]
    exact Nat.mod_eq_of_lt (by omega)
  next =>
    have hround : k + n - 1 = k - 1 + n := by omega
    rw [hround, Nat.add_mod_right]
    exact Nat.mod_eq_of_lt (by omega)

theorem execAll_push {e : Expr} {v : Int} (ho : o.Valid) (hsp : m.sp < o.stackSize)
    (he : e.eval m.store = some v) :
    execAll (push e) m.store = some (m.push (byteOf v)).store := by
  have hsize := ho.stackSize
  -- the byte is stored before the stack pointer moves
  let stored : Store o :=
    { m.store with stack := m.stack.setIfInBounds m.sp (byteOf v) }
  have hstore : (Stmt.assign (.cell .stack (.var .sp)) e).exec m.store = some stored := by
    refine exec_assign_cell (i := m.sp) rfl he ?_
    rw [Store.setCell?]
    show (put? m.stack (m.sp : Int) (byteOf v)).map _ = _
    rw [put?_of_lt _ _ hsp]
    rfl
  have hnext : (Expr.binary .mod (.group (.binary .add (.var .sp) (.num 1))) (.size .stack)).eval
      stored = some (((m.sp + 1) % o.stackSize : Nat) : Int) := by
    have hsum : (Expr.group (.binary .add (.var .sp) (.num 1))).eval stored =
        some ((m.sp + 1 : Nat) : Int) :=
      (eval_binary (x := m.sp) (y := 1) rfl rfl).trans
        (apply_add (k := m.sp) (l := 1) (by omega))
    rw [eval_binary hsum (eval_stackSize ho _), apply_mod (by omega) (by omega)]
  rw [push, execAll_cons, hstore, Option.bind_some, execAll_cons, exec_assign_var hnext,
    mod_eq_ite hsp]
  rfl

theorem exec_lower (ho : o.Valid) (hsp : m.sp < o.stackSize) :
    lower.exec m.store = some m.lower.store := by
  have hsize := ho.stackSize
  have hsum : (Expr.binary .add (.var .sp) (.size .stack)).eval m.store =
      some ((m.sp + o.stackSize : Nat) : Int) :=
    (eval_binary (x := m.sp) rfl (eval_stackSize ho _)).trans (apply_add (by omega))
  have hdifference : (Expr.group (.binary .sub (.binary .add (.var .sp) (.size .stack))
      (.num 1))).eval m.store = some ((m.sp + o.stackSize - 1 : Nat) : Int) :=
    (eval_binary (y := 1) hsum rfl).trans
      (apply_sub (k := m.sp + o.stackSize) (l := 1) (by omega) (by omega))
  have hvalue := (eval_binary hdifference (eval_stackSize ho _)).trans
    (apply_mod (by omega) (by omega))
  rw [mod_eq_ite_sub hsp] at hvalue
  exact exec_assign_var hvalue

/-! ## The place to return to -/

theorem eval_low (hpc : m.pc ≤ 65535) :
    (Expr.group (.binary .and (.var .pc) .byteMask)).eval m.store =
      some ((m.pc % 256 : Nat) : Int) := by
  have hmask : m.pc &&& 255 = m.pc % 256 := Nat.and_two_pow_sub_one_eq_mod m.pc 8
  rw [← hmask]
  exact (eval_binary (x := m.pc) (y := 255) rfl rfl).trans (apply_and (by omega) (by decide))

theorem eval_high (hpc : m.pc ≤ 65535) :
    (Expr.group (.binary .and (.group (.binary .shr (.var .pc) (.num 8))) .byteMask)).eval
      m.store = some ((m.pc / 256 : Nat) : Int) := by
  have hmask : m.pc / 2 ^ 8 &&& 255 = m.pc / 256 := by
    rw [Nat.and_two_pow_sub_one_eq_mod (m.pc / 2 ^ 8) 8]
    omega
  have hshift : (Expr.group (.binary .shr (.var .pc) (.num 8))).eval m.store =
      some ((m.pc / 2 ^ 8 : Nat) : Int) :=
    (eval_binary (x := m.pc) (y := 8) rfl rfl).trans (apply_shr (by decide))
  rw [← hmask]
  exact (eval_binary (y := 255) hshift rfl).trans (apply_and (by omega) (by decide))

/-- The low byte of the place to return to is pushed first. -/
theorem execAll_call (ho : o.Valid) (hsp : m.sp < o.stackSize) (hpc : m.pc ≤ 65535)
    (a b : UInt16) :
    execAll (stmts ⟨.call, a, b⟩) m.store = some (m.execute ⟨.call, a, b⟩).store := by
  have hlow : byteOf ((m.pc % 256 : Nat) : Int) = UInt8.ofNat m.pc := by
    rw [byteOf_natCast]
    exact UInt8.ofNat_mod_size
  have hpushed := execAll_push ho hsp (eval_byte (eval_low hpc))
  rw [byteOf_toNat, hlow] at hpushed
  have hagain := execAll_push (m := m.push (UInt8.ofNat m.pc)) ho (Machine.sp_push_lt hsp _)
    (eval_byte (eval_high hpc))
  rw [byteOf_toNat, byteOf_natCast] at hagain
  show execAll (push _ ++ push _ ++ [jump a]) m.store = _
  rw [execAll_append, execAll_append, hpushed, Option.bind_some, hagain, Option.bind_some,
    execAll_cons, exec_jump]
  rfl

/-- The byte on top of the stack is the high one. -/
theorem execAll_ret (ho : o.Valid) (hsp : m.sp < o.stackSize) (a b : UInt16) :
    execAll (stmts ⟨.ret, a, b⟩) m.store = some (m.execute ⟨.ret, a, b⟩).store := by
  have hhigh := m.top.toNat_lt
  have hlow := m.lower.top.toNat_lt
  let high : Machine o := { m.lower with pc := m.top.toNat }
  let shifted : Machine o := { m.lower with pc := m.top.toNat * 2 ^ 8 }
  have hjump : (Stmt.assign (.var .pc) top).exec m.lower.store = some high.store :=
    exec_assign_var (eval_top hsp)
  have hshift : (Stmt.update (.var .pc) .shl (.num 8)).exec high.store = some shifted.store := by
    have hvalue := apply_shl (k := m.top.toNat) (l := 8) (by decide) (by omega)
    show (BinaryOp.shl.apply (m.top.toNat : Int) (8 : Nat)).bind _ = _
    rw [hvalue]
    rfl
  have hround : m.lower.sp < o.stackSize := Machine.sp_lower_lt hsp
  have hlower : lower.exec shifted.store = some shifted.lower.store := exec_lower ho hround
  have hor : (Stmt.update (.var .pc) .or top).exec shifted.lower.store =
      some (m.execute ⟨.ret, a, b⟩).store := by
    have hvalue := apply_or (k := m.top.toNat * 2 ^ 8) (l := m.lower.top.toNat) (by omega) (by omega)
    have hsum : m.top.toNat * 2 ^ 8 ||| m.lower.top.toNat =
        m.top.toNat * 256 + m.lower.top.toNat := by
      have hshifted := Nat.shiftLeft_add_eq_or_of_lt hlow m.top.toNat
      rw [Nat.shiftLeft_eq] at hshifted
      exact hshifted.symm
    rw [hsum] at hvalue
    have htop : top.eval shifted.lower.store = some (m.lower.top.toNat : Int) :=
      eval_top (m := shifted) hround
    have hplace : (Place.var .pc).eval shifted.lower.store =
        some ((m.top.toNat * 2 ^ 8 : Nat) : Int) := rfl
    rw [Stmt.exec, hplace, Option.bind_some, htop, Option.bind_some, hvalue]
    rfl
  show execAll [lower, .assign (.var .pc) top, .update (.var .pc) .shl (.num 8), lower,
    .update (.var .pc) .or top] m.store = _
  rw [execAll_cons, exec_lower ho hsp, Option.bind_some, execAll_cons, hjump, Option.bind_some,
    execAll_cons, hshift, Option.bind_some, execAll_cons, hlower, Option.bind_some, execAll_cons,
    hor]
  rfl

/-- A branch goes on somewhere else when the register is zero or, for the other kind, when it is
    not. -/
theorem exec_branch {a : UInt16} (h : a.toNat < o.registerCount) (onZero : Bool) (b : UInt16) :
    (Stmt.branch (reg a) onZero (.var .pc) (.num b.toNat)).exec m.store =
      some (if (m.reg a == 0) == onZero then m.jump b else m).store := by
  have htarget := b.toNat_lt
  have hzero : ((m.reg a).toNat == (0 : Int)) = (m.reg a == 0) := by
    rw [Bool.eq_iff_iff, beq_iff_eq, beq_iff_eq, ← UInt8.toNat_inj]
    exact Int.natCast_eq_zero
  rw [Stmt.exec, eval_reg h, Option.bind_some, hzero, eval_num _ (by omega), Option.bind_some]
  split <;> rfl

/-! ## Instructions -/

/-- A number that fits a byte is the value of that byte. -/
theorem eval_number {b : UInt16} (hb : b.toNat ≤ 255) :
    (Expr.num b.toNat).eval m.store = some (b.toUInt8.toNat : Int) := by
  have hbyte : b.toUInt8.toNat = b.toNat := Nat.mod_eq_of_lt (by omega)
  rw [eval_num _ (by omega), hbyte]

/-- The number that an increment adds. -/
theorem eval_one : (Expr.num 1).eval m.store = some ((1 : UInt8).toNat : Int) :=
  rfl

/-- The statements of a word do what the word does, when its numbers name places that are there. -/
theorem execAll_stmts {n : Nat} {w : RomWord} (ho : o.Valid) (hw : w.InRange o n)
    (hsp : m.sp < o.stackSize) (hpc : m.pc ≤ 65535) :
    execAll (stmts w) m.store = some (m.execute w).store := by
  obtain ⟨op, a, b⟩ := w
  have haddress (i : UInt16) : (Expr.num i.toNat).eval m.store = some (i.toNat : Int) := by
    have hi := i.toNat_lt
    exact eval_num _ (by omega)
  cases op with
  | nop => rfl
  | mov => exact execAll_load (hw.a rfl) (eval_reg (hw.b rfl))
  | ldi => exact execAll_load (hw.a rfl) (eval_number (hw.b rfl))
  | ld => exact execAll_load (hw.a rfl) (eval_memory (haddress b) (hw.b rfl))
  | st => exact execAll_save (hw.a rfl) (haddress a) (hw.b rfl)
  | ldp => exact execAll_load (hw.a rfl) (eval_memory (eval_pointed ho (hw.b rfl)) (m.pointed_lt ho b))
  | stp => exact execAll_save (m.pointed_lt ho a) (eval_pointed ho (hw.a rfl)) (hw.b rfl)
  | add => exact execAll_compute (hw.a rfl) (eval_reg (hw.b rfl)) (computes_add _ _)
  | addi => exact execAll_compute (hw.a rfl) (eval_number (hw.b rfl)) (computes_add _ _)
  | sub => exact execAll_compute (hw.a rfl) (eval_reg (hw.b rfl)) (computes_sub _ _)
  | subi => exact execAll_compute (hw.a rfl) (eval_number (hw.b rfl)) (computes_sub _ _)
  | and => exact execAll_compute (hw.a rfl) (eval_reg (hw.b rfl)) (computes_and _ _)
  | or => exact execAll_compute (hw.a rfl) (eval_reg (hw.b rfl)) (computes_or _ _)
  | xor => exact execAll_compute (hw.a rfl) (eval_reg (hw.b rfl)) (computes_xor _ _)
  | not =>
    have hvalue : (Expr.complement (reg a)).eval m.store = some (-((m.reg a).toNat : Int) - 1) := by
      rw [Expr.eval, eval_reg (hw.a rfl), Option.map_some]
    refine execAll_load (hw.a rfl) ((eval_byte hvalue).trans ?_)
    rw [byteOf_complement]
  | shl => exact execAll_compute (hw.a rfl) eval_one (computes_shl _)
  | shr => exact execAll_compute (hw.a rfl) eval_one (computes_shr _)
  | inc => exact execAll_compute (hw.a rfl) eval_one (computes_add _ 1)
  | dec => exact execAll_compute (hw.a rfl) eval_one (computes_sub _ 1)
  | jmp => rw [stmts, execAll_cons, exec_jump]; rfl
  | jz =>
    rw [stmts, execAll_cons, exec_branch (hw.a rfl)]
    by_cases hzero : m.reg a = 0 <;> simp [Machine.execute, hzero]
  | jnz =>
    rw [stmts, execAll_cons, exec_branch (hw.a rfl)]
    by_cases hzero : m.reg a = 0 <;> simp [Machine.execute, hzero]
  | push =>
    rw [stmts, execAll_push ho hsp (eval_reg (hw.a rfl)), byteOf_toNat]
    rfl
  | pop =>
    rw [stmts, execAll_cons, exec_lower ho hsp, Option.bind_some, execAll_cons,
      exec_setReg (hw.a rfl) (eval_top hsp), byteOf_toNat]
    rfl
  | call => exact execAll_call ho hsp hpc a b
  | ret => exact execAll_ret ho hsp a b
  | out =>
    rw [stmts, execAll_cons, Stmt.exec, eval_reg (hw.a rfl), Option.map_some]
    rfl
  | hlt => rfl

end CFamily

end MacroAsm
