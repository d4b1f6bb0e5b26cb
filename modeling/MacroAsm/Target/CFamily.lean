import MacroAsm.Program.Linking

set_option autoImplicit false

/-! # Output in languages of the C family

The program becomes a loop over a `switch (pc++)` with a case for each encoded instruction. The
statements of a case are built as syntax trees, so that what they do can be said apart from how they
are written, and then written in one of two dialects, which differ in how a number is printed.

Where an expression needs parentheses, the tree has a group. -/

namespace MacroAsm

namespace CFamily

/-- The languages. -/
inductive Dialect where
  | c
  | csharp
  deriving DecidableEq, Repr

/-! ## Syntax trees -/

/-- The variables of the loop. -/
inductive Var where
  | pc
  | sp
  | running
  deriving DecidableEq, Repr

/-- The arrays of bytes. -/
inductive Bank where
  | registers
  | memory
  | stack
  deriving DecidableEq, Repr

/-- The constants of the template. -/
inductive Size where
  | memory
  | stack
  deriving DecidableEq, Repr

/-- The operators. -/
inductive BinaryOp where
  | add | sub | mod | and | or | xor | shl | shr
  deriving DecidableEq, Repr

/-- Expressions. -/
inductive Expr where
  | num (n : Nat)
  | byteMask
  | size (s : Size)
  | var (v : Var)
  | cell (b : Bank) (index : Expr)
  | binary (op : BinaryOp) (l r : Expr)
  | complement (e : Expr)
  | byte (e : Expr)
  | group (e : Expr)
  deriving DecidableEq, Repr

/-- What can be assigned to. -/
inductive Place where
  | var (v : Var)
  | cell (b : Bank) (index : Expr)
  deriving DecidableEq, Repr

/-- Statements. The condition of a branch compares an expression with zero. -/
inductive Stmt where
  | assign (p : Place) (e : Expr)
  | update (p : Place) (op : BinaryOp) (e : Expr)
  | branch (e : Expr) (onZero : Bool) (p : Place) (value : Expr)
  | print (e : Expr)
  deriving DecidableEq, Repr

/-! ## Statements of an instruction -/

/-- A register as an expression. -/
def reg (i : UInt16) : Expr := .cell .registers (.num i.toNat)

/-- Assign to a register. -/
def setReg (i : UInt16) (e : Expr) : Stmt := .assign (.cell .registers (.num i.toNat)) e

/-- Jump to an instruction. -/
def jump (target : UInt16) : Stmt := .assign (.var .pc) (.num target.toNat)

/-- The low byte of a register combined with another value. -/
def compute (op : BinaryOp) (a : UInt16) (e : Expr) : List Stmt :=
  [setReg a (.byte (.group (.binary op (reg a) e)))]

/-- The place in memory that a register points to, wherever memory ends. -/
def pointed (i : UInt16) : Expr := .binary .mod (reg i) (.size .memory)

/-- Push a byte: store it, then move the stack pointer up. -/
def push (e : Expr) : List Stmt :=
  [.assign (.cell .stack (.var .sp)) e,
   .assign (.var .sp) (.binary .mod (.group (.binary .add (.var .sp) (.num 1))) (.size .stack))]

/-- Move the stack pointer down, so that the byte it leaves can be read. -/
def lower : Stmt :=
  .assign (.var .sp)
    (.binary .mod
      (.group (.binary .sub (.binary .add (.var .sp) (.size .stack)) (.num 1))) (.size .stack))

/-- The byte on top of the stack. -/
def top : Expr := .cell .stack (.var .sp)

/-- The statements of an encoded instruction; `pc` already counts past it. -/
def stmts (w : RomWord) : List Stmt :=
  let (a, b) := (w.a, w.b)
  match w.op with
  | .nop => []
  | .mov => [setReg a (reg b)]
  | .ldi => [setReg a (.num b.toNat)]
  | .ld => [setReg a (.cell .memory (.num b.toNat))]
  | .st => [.assign (.cell .memory (.num a.toNat)) (reg b)]
  | .ldp => [setReg a (.cell .memory (pointed b))]
  | .stp => [.assign (.cell .memory (pointed a)) (reg b)]
  | .add => compute .add a (reg b)
  | .addi => compute .add a (.num b.toNat)
  | .sub => compute .sub a (reg b)
  | .subi => compute .sub a (.num b.toNat)
  | .and => compute .and a (reg b)
  | .or => compute .or a (reg b)
  | .xor => compute .xor a (reg b)
  | .not => [setReg a (.byte (.complement (reg a)))]
  | .shl => compute .shl a (.num 1)
  | .shr => compute .shr a (.num 1)
  | .inc => compute .add a (.num 1)
  | .dec => compute .sub a (.num 1)
  | .jmp => [jump a]
  | .jz => [.branch (reg a) true (.var .pc) (.num b.toNat)]
  | .jnz => [.branch (reg a) false (.var .pc) (.num b.toNat)]
  | .push => push (reg a)
  | .pop => [lower, setReg a top]
  | .call =>
    push (.byte (.group (.binary .and (.var .pc) .byteMask))) ++
      push (.byte (.group
        (.binary .and (.group (.binary .shr (.var .pc) (.num 8))) .byteMask))) ++
      [jump a]
  | .ret =>
    [lower, .assign (.var .pc) top, .update (.var .pc) .shl (.num 8), lower,
      .update (.var .pc) .or top]
  | .out => [.print (reg a)]
  | .hlt => [.assign (.var .running) (.num 0)]

/-! ## Writing -/

/-- A variable as it is written. -/
def Var.written : Var → String
  | .pc => "pc"
  | .sp => "sp"
  | .running => "running"

/-- An array as it is written. -/
def Bank.written : Bank → String
  | .registers => "registers"
  | .memory => "memory"
  | .stack => "stack"

/-- A constant as it is written. -/
def Size.written : Size → String
  | .memory => "MEMORY_SIZE"
  | .stack => "STACK_SIZE"

/-- An operator as it is written. -/
def BinaryOp.written : BinaryOp → String
  | .add => "+"
  | .sub => "-"
  | .mod => "%"
  | .and => "&"
  | .or => "|"
  | .xor => "^"
  | .shl => "<<"
  | .shr => ">>"

/-- An expression as it is written. -/
def Expr.written : Expr → String
  | .num n => toString n
  | .byteMask => "0xff"
  | .size s => s.written
  | .var v => v.written
  | .cell b index => b.written ++ "[" ++ index.written ++ "]"
  | .binary op l r => l.written ++ " " ++ op.written ++ " " ++ r.written
  | .complement e => "~" ++ e.written
  | .byte e => "(byte)" ++ e.written
  | .group e => "(" ++ e.written ++ ")"

/-- A place as it is written. -/
def Place.written : Place → String
  | .var v => v.written
  | .cell b index => b.written ++ "[" ++ index.written ++ "]"

/-- A statement as it is written. -/
def Stmt.written (d : Dialect) : Stmt → String
  | .assign p e => p.written ++ " = " ++ e.written ++ ";"
  | .update p op e => p.written ++ " " ++ op.written ++ "= " ++ e.written ++ ";"
  | .branch e onZero p value =>
    "if (" ++ e.written ++ (if onZero then " == " else " != ") ++ "0) " ++ p.written ++ " = " ++
      value.written ++ ";"
  | .print e =>
    match d with
    | .c => "printf(\"%d\\n\", " ++ e.written ++ ");"
    | .csharp => "Console.WriteLine(" ++ e.written ++ ");"

/-- A text that cannot end a comment. -/
def commentSafe : List Char → List Char
  | '*' :: '/' :: cs => '*' :: ' ' :: '/' :: commentSafe cs
  | c :: cs => c :: commentSafe cs
  | [] => []

/-- The line that begins the case of an instruction, with the instruction in a comment. -/
def caseLine (pc : Nat) : Option String → String
  | some source =>
    let text := String.ofList (commentSafe source.toList)
    s!"        case {pc}: /* {text} */"
  | none => s!"        case {pc}:"

/-- The lines of the case of an instruction. -/
def caseLines (d : Dialect) (source : Array String) (item : RomWord × Nat) : List String :=
  caseLine item.2 source[item.2]? :: (stmts item.1).map (fun s => "            " ++ s.written d) ++
    ["            break;"]

/-- The lines before the cases. -/
def opening : List String :=
  ["int pc = 0;", "int sp = 0;", "int running = 1;", "while (running != 0)", "\x7b",
   "    switch (pc++)", "    \x7b"]

/-- The lines behind the cases. -/
def closing : List String :=
  ["        default:", "            running = 0;", "            break;", "    \x7d", "\x7d"]

/-- The code of a program. -/
def code (d : Dialect) (p : Program) : String :=
  let cases := p.rom.zipIdx.flatMap (caseLines d p.source.toArray)
  String.intercalate "\n" (opening ++ cases ++ closing)

end CFamily

end MacroAsm
