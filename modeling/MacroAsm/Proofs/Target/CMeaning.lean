import Mathlib.Algebra.Ring.Int.Defs
import MacroAsm.Proofs.Isa.Machine
import MacroAsm.Target.CFamily

set_option autoImplicit false

/-! # The meaning of statements in C

Expressions have values of type `int`, of 32 bits; the cells of the arrays are bytes, which are widened
when they are read and cut off when they are written. Whatever C leaves undefined has no meaning
here: a value that `int` cannot hold, a division by zero, a shift of a negative number, and an index
outside its array. -/

namespace MacroAsm

namespace CFamily

/-- What the variables of the loop hold, and what was printed. -/
structure Store (o : Options) extends Bytes o where
  pc : Int
  sp : Int
  running : Int
  output : String
  deriving DecidableEq

/-! ## Values -/

/-- A value, if `int` can hold it. -/
def inInt (v : Int) : Option Int :=
  if -2147483648 ≤ v ∧ v ≤ 2147483647 then some v else none

/-- The bits of a value. -/
def bits (v : Int) : BitVec 32 :=
  BitVec.ofInt 32 v

/-- The byte that is left of a value. -/
def byteOf (v : Int) : UInt8 :=
  UInt8.ofNat (v % 256).toNat

/-- What an operator makes of two values. A remainder has the sign of the first value, and is defined
    where the quotient is. -/
def BinaryOp.apply (l r : Int) : BinaryOp → Option Int
  | .add => inInt (l + r)
  | .sub => inInt (l - r)
  | .mod => if r = 0 then none else (inInt (l.tdiv r)).map fun _ => l.tmod r
  | .and => some (bits l &&& bits r).toInt
  | .or => some (bits l ||| bits r).toInt
  | .xor => some (bits l ^^^ bits r).toInt
  | .shl => if 0 ≤ l ∧ 0 ≤ r ∧ r < 32 then inInt (l * 2 ^ r.toNat) else none
  | .shr => if 0 ≤ l ∧ 0 ≤ r ∧ r < 32 then some (l / 2 ^ r.toNat) else none

/-! ## Arrays -/

/-- The byte at an index, if it is in the array. -/
def at? {n : Nat} (bytes : Vector UInt8 n) (i : Int) : Option UInt8 :=
  if 0 ≤ i then bytes[i.toNat]? else none

/-- An array with another byte at an index, if that is in the array. -/
def put? {n : Nat} (bytes : Vector UInt8 n) (i : Int) (v : UInt8) : Option (Vector UInt8 n) :=
  if 0 ≤ i ∧ i < n then some (bytes.setIfInBounds i.toNat v) else none

namespace Store

variable {o : Options}

/-- A byte of one of the arrays. -/
def cell? (s : Store o) (i : Int) : Bank → Option UInt8
  | .registers => at? s.registers i
  | .memory => at? s.memory i
  | .stack => at? s.stack i

def setCell? (s : Store o) (i : Int) (v : UInt8) : Bank → Option (Store o)
  | .registers => (put? s.registers i v).map fun bytes => { s with registers := bytes }
  | .memory => (put? s.memory i v).map fun bytes => { s with memory := bytes }
  | .stack => (put? s.stack i v).map fun bytes => { s with stack := bytes }

/-- The value of a variable. -/
def var (s : Store o) : Var → Int
  | .pc => s.pc
  | .sp => s.sp
  | .running => s.running

def setVar (s : Store o) (v : Int) : Var → Store o
  | .pc => { s with pc := v }
  | .sp => { s with sp := v }
  | .running => { s with running := v }

end Store

/-! ## Expressions and statements -/

variable {o : Options}

/-- The value of an expression. -/
def Expr.eval (s : Store o) : Expr → Option Int
  | .num n => inInt n
  | .byteMask => some 255
  | .size .memory => inInt o.memorySize
  | .size .stack => inInt o.stackSize
  | .var v => some (s.var v)
  | .cell b index => (index.eval s).bind fun i => (s.cell? i b).map fun v => (v.toNat : Int)
  | .binary op l r => (l.eval s).bind fun x => (r.eval s).bind fun y => op.apply x y
  | .complement e => (e.eval s).map fun v => -v - 1
  | .byte e => (e.eval s).map fun v => ((byteOf v).toNat : Int)
  | .group e => e.eval s

/-- The value that a place has. -/
def Place.eval (s : Store o) : Place → Option Int
  | .var v => (Expr.var v).eval s
  | .cell b index => (Expr.cell b index).eval s

/-- Store a value in a place; a cell keeps what is left of it as a byte. -/
def Place.assign (s : Store o) (v : Int) : Place → Option (Store o)
  | .var x => some (s.setVar v x)
  | .cell b index => (index.eval s).bind fun i => s.setCell? i (byteOf v) b

/-- What a statement does. -/
def Stmt.exec (s : Store o) : Stmt → Option (Store o)
  | .assign p e => (e.eval s).bind fun v => p.assign s v
  | .update p op e =>
    (p.eval s).bind fun x => (e.eval s).bind fun y => (op.apply x y).bind fun v => p.assign s v
  | .branch e onZero p value =>
    (e.eval s).bind fun c =>
      if (c == 0) == onZero then (value.eval s).bind fun v => p.assign s v else some s
  | .print e => (e.eval s).map fun v => { s with output := s.output ++ toString v ++ "\n" }

/-- What statements do one after the other. -/
def execAll (ss : List Stmt) (s : Store o) : Option (Store o) :=
  ss.foldlM (fun s stmt => stmt.exec s) s

/-! ## The loop -/

/-- One turn of `while (running != 0) switch (pc++)`, where the default case ends the loop. -/
def Store.turn (cases : List (Nat × List Stmt)) (s : Store o) : Option (Store o) :=
  if s.running = 0 then some s
  else (inInt (s.pc + 1)).bind fun next =>
    match cases.find? (fun c => (c.1 : Int) == s.pc) with
    | some c => execAll c.2 { s with pc := next }
    | none => some { s with pc := next, running := 0 }

/-- Some turns. -/
def Store.turns (cases : List (Nat × List Stmt)) : Nat → Store o → Option (Store o)
  | 0, s => some s
  | n + 1, s => (s.turn cases).bind (turns cases n)

/-- The variables before the loop. -/
def Store.start (o : Options) : Store o where
  toBytes := .zero o
  pc := 0
  sp := 0
  running := 1
  output := ""

end CFamily

end MacroAsm
