import MacroAsm.Proofs.Target.CTokens

set_option autoImplicit false

/-! # Reading the C family

What C makes of the tokens of a loop. Expressions are read from left to right with a stack of what is
still open; an operator takes in what stands before it as far as it binds weaker. The text of a
program is read as its cases, each with the statements of its instruction
(`CFamily.casesOf_code`): where the statements need parentheses, they have them. -/

namespace MacroAsm

namespace CFamily

/-! ## Expressions -/

/-- How strongly an operator binds. -/
def BinaryOp.level : BinaryOp → Nat
  | .or => 0
  | .xor => 1
  | .and => 2
  | .shl | .shr => 3
  | .add | .sub => 4
  | .mod => 5

/-- What waits for an expression on its right. -/
inductive Frame where
  | binary (l : Expr) (op : BinaryOp)
  | complement
  | byte
  | group
  | cell (b : Bank)
  deriving DecidableEq, Repr

/-- Finish what binds an expression at least as strongly as the operators of a level do. -/
def reduce (n : Nat) : List Frame → Expr → List Frame × Expr
  | .binary l op :: fs, e =>
    if n ≤ op.level then reduce n fs (.binary op l e) else (.binary l op :: fs, e)
  | .complement :: fs, e => reduce n fs (.complement e)
  | .byte :: fs, e => reduce n fs (.byte e)
  | fs, e => (fs, e)

/-- How far an expression was read. -/
inductive Progress where
  | wanted (fs : List Frame)
  | array (fs : List Frame) (b : Bank)
  | cast (fs : List Frame)
  | found (fs : List Frame) (e : Expr)
  deriving DecidableEq, Repr

/-- Read one more token of an expression. -/
def Progress.next : Progress → Token → Option Progress
  | .wanted fs, .num n => some (.found fs (.num n))
  | .wanted fs, .byteMask => some (.found fs .byteMask)
  | .wanted fs, .size s => some (.found fs (.size s))
  | .wanted fs, .var v => some (.found fs (.var v))
  | .wanted fs, .bank b => some (.array fs b)
  | .wanted fs, .tilde => some (.wanted (.complement :: fs))
  | .wanted fs, .leftParen => some (.wanted (.group :: fs))
  | .wanted (.group :: fs), .byte => some (.cast fs)
  | .cast fs, .rightParen => some (.wanted (.byte :: fs))
  | .array fs b, .leftBracket => some (.wanted (.cell b :: fs))
  | .found fs e, .operator op =>
    let r := reduce op.level fs e
    some (.wanted (.binary r.2 op :: r.1))
  | .found fs e, .rightParen =>
    match reduce 0 fs e with
    | (.group :: fs, e) => some (.found fs (.group e))
    | _ => none
  | .found fs e, .rightBracket =>
    match reduce 0 fs e with
    | (.cell b :: fs, e) => some (.found fs (.cell b e))
    | _ => none
  | _, _ => none

/-- Read some tokens of an expression. -/
def Progress.run (ts : List Token) (s : Progress) : Option Progress :=
  ts.foldlM next s

/-- Read an expression whose operators are of a level or bind stronger. -/
def parseExpr (n : Nat) (ts : List Token) : Option Expr :=
  match Progress.run ts (.wanted []) with
  | some (.found fs e) =>
    match reduce n fs e with
    | ([], e) => some e
    | _ => none
  | _ => none

/-- How strongly an expression holds together. -/
def Expr.level : Expr → Nat
  | .binary op _ _ => op.level
  | _ => 6

/-- Whether an expression has parentheses wherever its tree has a group, and needs no others. -/
def Expr.Grouped : Expr → Prop
  | .num _ | .byteMask | .size _ | .var _ => True
  | .cell _ index => index.Grouped
  | .binary op l r => op.level ≤ l.level ∧ op.level < r.level ∧ l.Grouped ∧ r.Grouped
  | .complement e | .byte e => e.level = 6 ∧ e.Grouped
  | .group e => e.Grouped

theorem BinaryOp.level_lt (op : BinaryOp) : op.level < 6 := by
  cases op <;> decide

theorem Expr.level_le (e : Expr) : e.level ≤ 6 := by
  cases e with
  | binary op l r => exact Nat.le_of_lt op.level_lt
  | _ => exact Nat.le_refl 6

/-- What is open binds weaker than an expression of a level. -/
def Below (n : Nat) : List Frame → Prop
  | .binary _ op :: _ => op.level < n
  | .complement :: _ | .byte :: _ => n = 6
  | _ => True

theorem Below.mono {n m : Nat} {fs : List Frame} (h : Below n fs) (hnm : n ≤ m) (hm : m ≤ 6) :
    Below m fs := by
  cases fs with
  | nil => trivial
  | cons f fs =>
    cases f with
    | binary l op => exact Nat.lt_of_lt_of_le h hnm
    | complement => exact Nat.le_antisymm hm (Nat.le_trans (Nat.le_of_eq (Eq.symm h)) hnm)
    | byte => exact Nat.le_antisymm hm (Nat.le_trans (Nat.le_of_eq (Eq.symm h)) hnm)
    | group => trivial
    | cell b => trivial

/-- What binds weaker stays open. -/
theorem reduce_of_below {n : Nat} {fs : List Frame} (h : Below n fs) (hn : n < 6) (e : Expr) :
    reduce n fs e = (fs, e) := by
  cases fs with
  | nil => rfl
  | cons f fs =>
    cases f with
    | binary l op =>
      have hlt : ¬n ≤ op.level := Nat.not_le.2 h
      rw [reduce, if_neg hlt]
    | complement => exact absurd h (Nat.ne_of_lt hn)
    | byte => exact absurd h (Nat.ne_of_lt hn)
    | group => rfl
    | cell b => rfl

namespace Progress

theorem run_append (ts ts' : List Token) (s : Progress) :
    run (ts ++ ts') s = (run ts s).bind (run ts') :=
  List.foldlM_append

theorem run_cons (t : Token) (ts : List Token) (s : Progress) :
    run (t :: ts) s = (s.next t).bind (run ts) :=
  List.foldlM_cons

variable {fs gs : List Frame} {x e : Expr}

theorem next_operator {op : BinaryOp} (h : reduce op.level gs x = (fs, e)) :
    (found gs x).next (.operator op) = some (.wanted (.binary e op :: fs)) := by
  rw [next, h]

theorem next_rightParen (h : reduce 0 gs x = (.group :: fs, e)) :
    (found gs x).next .rightParen = some (.found fs (.group e)) := by
  rw [next, h]

theorem next_rightBracket {b : Bank} (h : reduce 0 gs x = (.cell b :: fs, e)) :
    (found gs x).next .rightBracket = some (.found fs (.cell b e)) := by
  rw [next, h]

end Progress

/-- The tokens of an expression are read, and what comes next takes it in as a whole, unless it binds
    stronger than the expression holds together. -/
theorem Expr.run_tokens {e : Expr} (he : e.Grouped) (fs : List Frame) (hfs : Below e.level fs) :
    ∃ gs x, Progress.run e.tokens (.wanted fs) = some (.found gs x) ∧
      ∀ n ≤ e.level, reduce n gs x = reduce n fs e := by
  induction e generalizing fs with
  | num n => exact ⟨fs, .num n, rfl, fun _ _ => rfl⟩
  | byteMask => exact ⟨fs, .byteMask, rfl, fun _ _ => rfl⟩
  | size s => exact ⟨fs, .size s, rfl, fun _ _ => rfl⟩
  | var v => exact ⟨fs, .var v, rfl, fun _ _ => rfl⟩
  | cell b index ih =>
    obtain ⟨gs, x, hrun, hreduce⟩ := ih he (.cell b :: fs) trivial
    refine ⟨fs, .cell b index, ?_, fun _ _ => rfl⟩
    show (Progress.run (index.tokens ++ [.rightBracket]) (.wanted (.cell b :: fs))) = _
    rw [Progress.run_append, hrun, Option.bind_some, Progress.run_cons,
      Progress.next_rightBracket (hreduce 0 (Nat.zero_le _))]
    rfl
  | binary op l r hl hr =>
    obtain ⟨hlevel, hlevel', hl', hr'⟩ := he
    -- what is open binds weaker than the operator, so it does not take in the left side
    obtain ⟨gs, x, hrun, hreduce⟩ := hl hl' fs (hfs.mono hlevel l.level_le)
    have hleft := hreduce op.level hlevel
    rw [reduce_of_below (n := op.level) hfs op.level_lt] at hleft
    obtain ⟨gs', x', hrun', hreduce'⟩ := hr hr' (.binary l op :: fs) hlevel'
    refine ⟨gs', x', ?_, ?_⟩
    · show Progress.run (l.tokens ++ .operator op :: r.tokens) _ = _
      rw [Progress.run_append, hrun, Option.bind_some, Progress.run_cons,
        Progress.next_operator hleft, Option.bind_some, hrun']
    · intro n hn
      have hright := hreduce' n (Nat.le_trans hn (Nat.le_of_lt hlevel'))
      rw [reduce, if_pos (c := n ≤ op.level) hn] at hright
      exact hright
  | complement e ih =>
    obtain ⟨gs, x, hrun, hreduce⟩ := ih he.2 (.complement :: fs) he.1
    refine ⟨gs, x, hrun, ?_⟩
    intro n hn
    exact hreduce n (he.1 ▸ hn)
  | byte e ih =>
    obtain ⟨gs, x, hrun, hreduce⟩ := ih he.2 (.byte :: fs) he.1
    refine ⟨gs, x, hrun, ?_⟩
    intro n hn
    exact hreduce n (he.1 ▸ hn)
  | group e ih =>
    obtain ⟨gs, x, hrun, hreduce⟩ := ih he (.group :: fs) trivial
    refine ⟨fs, .group e, ?_, fun _ _ => rfl⟩
    show (Progress.run (e.tokens ++ [.rightParen]) (.wanted (.group :: fs))) = _
    rw [Progress.run_append, hrun, Option.bind_some, Progress.run_cons,
      Progress.next_rightParen (hreduce 0 (Nat.zero_le _))]
    rfl

/-- An expression with its parentheses is read as it is. -/
theorem parseExpr_tokens {e : Expr} (he : e.Grouped) {n : Nat} (hn : n ≤ e.level) :
    parseExpr n e.tokens = some e := by
  obtain ⟨gs, x, hrun, hreduce⟩ := e.run_tokens he [] trivial
  have hall : reduce n gs x = ([], e) := hreduce n hn
  unfold parseExpr
  rw [hrun]
  show (match reduce n gs x with
    | ([], e) => some e
    | _ => none) = _
  rw [hall]

/-! ## Statements -/

/-- The tokens that expressions are made of. -/
def Token.isOfExpr : Token → Bool
  | .num _ | .byteMask | .var _ | .bank _ | .size _ | .operator _ | .tilde | .byte => true
  | .leftParen | .rightParen | .leftBracket | .rightBracket => true
  | _ => false

/-- The place that an expression stands for. -/
def Expr.place? : Expr → Option Place
  | .var v => some (.var v)
  | .cell b index => some (.cell b index)
  | _ => none

/-- Read an expression in parentheses. -/
def parseGroup (ts : List Token) : Option Expr :=
  match parseExpr 0 ts with
  | some (.group e) => some e
  | _ => none

/-- What a token between a place and an expression makes of them. -/
def Token.assignment? : Token → Option (Place → Expr → Stmt)
  | .gets => some .assign
  | .update op => some fun p e => .update p op e
  | _ => none

/-- Read an assignment. -/
def parseAssignment (ts : List Token) : Option Stmt :=
  match ts.dropWhile Token.isOfExpr with
  | t :: rest =>
    t.assignment?.bind fun f =>
      ((parseExpr 0 (ts.takeWhile Token.isOfExpr)).bind Expr.place?).bind fun p =>
        (parseExpr 0 rest).map (f p)
  | [] => none

/-- Read a statement without its end. A comparison binds weaker than sums and shifts, but stronger
    than the operators on bits. -/
def parseStmt : Dialect → List Token → Option Stmt
  | _, .if :: .leftParen :: ts =>
    match ts.dropWhile Token.isOfExpr with
    | .compare onZero :: .num 0 :: .rightParen :: rest =>
      (parseExpr 3 (ts.takeWhile Token.isOfExpr)).bind fun e =>
        match parseAssignment rest with
        | some (.assign p value) => some (.branch e onZero p value)
        | _ => none
    | _ => none
  | .c, .printf :: .leftParen :: .numberLine :: .comma :: ts =>
    (parseGroup (.leftParen :: ts)).map .print
  | .csharp, .writeLine :: ts => (parseGroup ts).map .print
  | _, ts => parseAssignment ts

/-- Whether the expressions of a statement have the parentheses that they need. -/
def Stmt.Grouped : Stmt → Prop
  | .assign p e | .update p _ e => p.expr.Grouped ∧ e.Grouped
  | .branch e _ p value => (3 ≤ e.level ∧ e.Grouped) ∧ p.expr.Grouped ∧ value.Grouped
  | .print e => e.Grouped

theorem Expr.isOfExpr_of_mem_tokens {e : Expr} : ∀ t ∈ e.tokens, t.isOfExpr = true := by
  induction e with
  | num n => simp [tokens, Token.isOfExpr]
  | byteMask => simp [tokens, Token.isOfExpr]
  | size s => simp [tokens, Token.isOfExpr]
  | var v => simp [tokens, Token.isOfExpr]
  | cell b index ih => simpa [tokens, Token.isOfExpr, or_imp, forall_and] using ih
  | binary op l r hl hr => simpa [tokens, Token.isOfExpr, or_imp, forall_and] using ⟨hl, hr⟩
  | complement e ih => simpa [tokens, Token.isOfExpr] using ih
  | byte e ih => simpa [tokens, Token.isOfExpr] using ih
  | group e ih => simpa [tokens, Token.isOfExpr, or_imp, forall_and] using ih

section Cut

variable {t : Token} (ht : t.isOfExpr = false) (e : Expr) (ts : List Token)

include ht

theorem Expr.takeWhile_tokens : (e.tokens ++ t :: ts).takeWhile Token.isOfExpr = e.tokens := by
  rw [List.takeWhile_append_of_pos isOfExpr_of_mem_tokens, List.takeWhile_cons_of_neg (by simp [ht]),
    List.append_nil]

theorem Expr.dropWhile_tokens : (e.tokens ++ t :: ts).dropWhile Token.isOfExpr = t :: ts := by
  rw [List.dropWhile_append_of_pos isOfExpr_of_mem_tokens, List.dropWhile_cons_of_neg (by simp [ht])]

end Cut

theorem Place.place?_expr (p : Place) : p.expr.place? = some p := by
  cases p <;> rfl

theorem parseAssignment_tokens {t : Token} {f : Place → Expr → Stmt} {p : Place} {e : Expr}
    (ht : t.assignment? = some f) (hp : p.expr.Grouped) (he : e.Grouped) :
    parseAssignment (p.expr.tokens ++ t :: e.tokens) = some (f p e) := by
  have hexpr : t.isOfExpr = false := by
    cases t <;> first | rfl | cases ht
  rw [parseAssignment, Expr.takeWhile_tokens hexpr, Expr.dropWhile_tokens hexpr]
  show t.assignment?.bind _ = _
  rw [ht, Option.bind_some, parseExpr_tokens hp (Nat.zero_le _), Option.bind_some,
    Place.place?_expr, Option.bind_some, parseExpr_tokens he (Nat.zero_le _), Option.map_some]

/-- An expression in parentheses is read as what is in them. -/
theorem parseGroup_tokens {e : Expr} (he : e.Grouped) :
    parseGroup (.leftParen :: (e.tokens ++ [.rightParen])) = some e := by
  have hgroup : parseExpr 0 (Expr.group e).tokens = some (.group e) :=
    parseExpr_tokens (e := .group e) he (Nat.zero_le _)
  rw [parseGroup]
  rw [Expr.tokens] at hgroup
  rw [hgroup]

theorem parseStmt_place (d : Dialect) (p : Place) (ts : List Token) :
    parseStmt d (p.expr.tokens ++ ts) = parseAssignment (p.expr.tokens ++ ts) := by
  cases p <;> cases d <;> rfl

/-- A statement with its parentheses is read as it is. -/
theorem parseStmt_tokens {s : Stmt} (hs : s.Grouped) (d : Dialect) :
    parseStmt d (s.tokens d) = some s := by
  cases s with
  | assign p e =>
    rw [Stmt.tokens, parseStmt_place, parseAssignment_tokens rfl hs.1 hs.2]
  | update p op e =>
    rw [Stmt.tokens, parseStmt_place, parseAssignment_tokens rfl hs.1 hs.2]
  | branch e onZero p value =>
    obtain ⟨⟨hlevel, he⟩, hp, hvalue⟩ := hs
    rw [Stmt.tokens, parseStmt, Expr.takeWhile_tokens rfl, Expr.dropWhile_tokens rfl]
    show (parseExpr 3 e.tokens).bind _ = _
    rw [parseExpr_tokens he hlevel, Option.bind_some, parseAssignment_tokens rfl hp hvalue]
  | print e =>
    have hgroup := parseGroup_tokens hs
    cases d with
    | c =>
      show (parseGroup (.leftParen :: (e.tokens ++ [.rightParen]))).map Stmt.print = _
      rw [hgroup]
      rfl
    | csharp =>
      show (parseGroup (.leftParen :: (e.tokens ++ [.rightParen]))).map Stmt.print = _
      rw [hgroup]
      rfl

/-- The statements of an instruction have the parentheses that they need. -/
theorem grouped_of_mem_stmts {w : RomWord} : ∀ s ∈ stmts w, s.Grouped := by
  obtain ⟨op, a, b⟩ := w
  cases op <;> simp [stmts, Stmt.Grouped, setReg, reg, compute, jump, push, lower, top, pointed,
    Place.expr, Expr.Grouped, Expr.level, BinaryOp.level]

/-! ## Cases -/

/-- Whether a token ends a label or a statement. -/
def Token.isEnd : Token → Bool
  | .semicolon | .colon => true
  | _ => false

/-- A token in front of the first of some parts. -/
def joinFirst (t : Token) : List (List Token) → List (List Token)
  | [] => [[t]]
  | part :: parts => (t :: part) :: parts

/-- A token in front of labels and statements. -/
def addToken (t : Token) (parts : List (List Token)) : List (List Token) :=
  if t.isEnd then [t] :: parts else joinFirst t parts

/-- The labels and statements of a text, each with its end. -/
def parts (ts : List Token) : List (List Token) :=
  ts.foldr addToken []

/-- What the body of the switch is made of. -/
inductive Part where
  | label (n : Nat)
  | stmt (s : Stmt)
  | break
  deriving DecidableEq, Repr

namespace Part

/-- Read a part. -/
def parse (d : Dialect) : List Token → Option Part
  | [.case, .num n, .colon] => some (.label n)
  | [.break, .semicolon] => some .break
  | ts =>
    if ts.getLast? = some .semicolon then (parseStmt d ts.dropLast).map .stmt
    else none

/-- The tokens of a part. -/
def tokens (d : Dialect) : Part → List Token
  | label n => [.case, .num n, .colon]
  | stmt s => s.tokens d ++ [.semicolon]
  | .break => [.break, .semicolon]

/-- A part in front of the rest of its case, if one was begun, and of other cases. A statement that
    control reaches from the case above, or none, is not understood. -/
def gather : Part → Option (List Stmt) × List (Nat × List Stmt) →
    Option (Option (List Stmt) × List (Nat × List Stmt))
  | .break, (none, cases) => some (some [], cases)
  | stmt s, (some ss, cases) => some (some (s :: ss), cases)
  | label n, (some ss, cases) => some (none, (n, ss) :: cases)
  | _, _ => none

end Part

/-- The cases that parts make up. -/
def casesOfParts (ps : List Part) : Option (List (Nat × List Stmt)) :=
  match ps.foldrM Part.gather (none, []) with
  | some (none, cases) => some cases
  | _ => none

/-- What stands between a beginning and an end. -/
def between (before behind ts : List Token) : Option (List Token) :=
  let body := (ts.drop before.length).take (ts.length - before.length - behind.length)
  if before ++ body ++ behind = ts then some body else none

/-- The cases of the switch in a text that is such a loop. -/
def casesOf (d : Dialect) (text : String) : Option (List (Nat × List Stmt)) :=
  (tokensOf text).bind fun ts =>
    (between headerLines.flatten footerLines.flatten ts).bind fun body =>
      ((parts body).mapM (Part.parse d)).bind casesOfParts

theorem between_append (before body behind : List Token) :
    between before behind (before ++ body ++ behind) = some body := by
  have hbody : ((before ++ body ++ behind).drop before.length).take
      ((before ++ body ++ behind).length - before.length - behind.length) = body := by
    have hlength : (before ++ body ++ behind).length - before.length - behind.length =
        body.length := by
      simp only [List.length_append]
      omega
    rw [hlength, List.append_assoc, List.drop_left, List.take_left]
  rw [between, hbody]
  exact if_pos rfl

/-- A part ends with its first end. -/
theorem parts_append {a : List Token} {t : Token} (ha : ∀ t ∈ a, t.isEnd = false)
    (ht : t.isEnd = true) (rest : List Token) :
    parts (a ++ t :: rest) = (a ++ [t]) :: parts rest := by
  induction a with
  | nil =>
    show addToken t (parts rest) = _
    rw [addToken, if_pos ht]
    rfl
  | cons t' a ih =>
    have ht' : ¬t'.isEnd = true := by simp [ha t' List.mem_cons_self]
    have ih := ih fun t ht => ha t (List.mem_cons_of_mem t' ht)
    show addToken t' (parts (a ++ t :: rest)) = _
    rw [ih, addToken, if_neg ht']
    rfl

theorem Expr.isEnd_of_mem_tokens {e : Expr} {t : Token} (ht : t ∈ e.tokens) : t.isEnd = false := by
  have hexpr := isOfExpr_of_mem_tokens t ht
  cases t <;> first | rfl | cases hexpr

theorem Stmt.isEnd_of_mem_tokens {s : Stmt} {d : Dialect} :
    ∀ t ∈ s.tokens d, t.isEnd = false := by
  have hexpr (e : Expr) : ∀ t ∈ e.tokens, t.isEnd = false := fun t ht => e.isEnd_of_mem_tokens ht
  cases s with
  | assign p e =>
    simpa [tokens, or_imp, forall_and, Token.isEnd] using ⟨hexpr p.expr, hexpr e⟩
  | update p op e =>
    simpa [tokens, or_imp, forall_and, Token.isEnd] using ⟨hexpr p.expr, hexpr e⟩
  | branch e onZero p value =>
    simpa [tokens, or_imp, forall_and, Token.isEnd] using
      ⟨hexpr e, hexpr p.expr, hexpr value⟩
  | print e =>
    cases d <;> simpa [tokens, or_imp, forall_and, Token.isEnd] using hexpr e

/-- The parts of a text are found again. -/
theorem parts_flatMap_tokens (d : Dialect) (ps : List Part) :
    parts (ps.flatMap (Part.tokens d)) = ps.map (Part.tokens d) := by
  induction ps with
  | nil => rfl
  | cons p ps ih =>
    rw [List.flatMap_cons, List.map_cons, ← ih]
    cases p with
    | label n => exact parts_append (a := [.case, .num n]) (by simp [Token.isEnd]) rfl _
    | stmt s =>
      rw [Part.tokens, List.append_assoc]
      exact parts_append Stmt.isEnd_of_mem_tokens rfl _
    | «break» => exact parts_append (a := [.break]) (by simp [Token.isEnd]) rfl _

namespace Part

/-- Whether a statement has the parentheses that it needs. -/
def Grouped : Part → Prop
  | stmt s => s.Grouped
  | _ => True

theorem parse_tokens {p : Part} (hp : p.Grouped) (d : Dialect) : parse d (p.tokens d) = some p := by
  cases p with
  | label n => rfl
  | stmt s =>
    have hstmt : parseStmt d (s.tokens d) = some s := parseStmt_tokens hp d
    rw [tokens]
    unfold parse
    split
    · next n heq =>
      have hlast := congrArg List.getLast? heq
      simp at hlast
    · next heq =>
      -- no statement is a token alone
      obtain hbreak : s.tokens d = [.break] := (List.append_inj' heq rfl).1
      rw [hbreak] at hstmt
      cases d <;> cases hstmt
    · rw [List.getLast?_concat, if_pos rfl, List.dropLast_concat, hstmt]
      rfl
  | «break» => rfl

end Part

/-- The parts of a case. -/
def caseParts (x : RomWord × Nat) : List Part :=
  .label x.2 :: (stmts x.1).map .stmt ++ [.break]

theorem flatMap_tokens_caseParts (d : Dialect) (x : RomWord × Nat) :
    (caseParts x).flatMap (Part.tokens d) = caseTokens d x := by
  simp [caseParts, caseTokens, Part.tokens, List.flatMap_map]

theorem grouped_of_mem_caseParts {x : RomWord × Nat} : ∀ p ∈ caseParts x, p.Grouped := by
  intro p hp
  rw [caseParts, List.mem_append, List.mem_cons, List.mem_map, List.mem_singleton] at hp
  obtain (rfl | ⟨s, hs, rfl⟩) | rfl := hp
  · trivial
  · exact grouped_of_mem_stmts s hs
  · trivial

/-- The parts of a case make up the case. -/
theorem foldrM_gather_caseParts (x : RomWord × Nat) (cases : List (Nat × List Stmt)) :
    (caseParts x).foldrM Part.gather (none, cases) = some (none, (x.2, stmts x.1) :: cases) := by
  have hstmts (ss : List Stmt) :
      (ss.map Part.stmt).foldrM Part.gather (some [], cases) = some (some ss, cases) := by
    induction ss with
    | nil => rfl
    | cons s ss ih =>
      rw [List.map_cons, List.foldrM_cons, ih]
      rfl
  rw [caseParts, List.foldrM_append]
  show ((Part.label x.2 :: (stmts x.1).map .stmt).foldrM Part.gather (some [], cases)) = _
  rw [List.foldrM_cons, hstmts]
  rfl

/-- The parts of cases make them up. -/
theorem casesOfParts_flatMap (xs : List (RomWord × Nat)) :
    casesOfParts (xs.flatMap caseParts) = some (xs.map fun x => (x.2, stmts x.1)) := by
  have hfold : (xs.flatMap caseParts).foldrM Part.gather (none, []) =
      some (none, xs.map fun x => (x.2, stmts x.1)) := by
    induction xs with
    | nil => rfl
    | cons x xs ih =>
      rw [List.flatMap_cons, List.foldrM_append, ih, List.map_cons]
      exact foldrM_gather_caseParts x _
  rw [casesOfParts, hfold]

/-- The text of a program is that of its cases. -/
theorem casesOf_code (d : Dialect) (p : Program) :
    casesOf d (code d p) = some (p.rom.zipIdx.map fun x => (x.2, stmts x.1)) := by
  have htokens : p.rom.zipIdx.flatMap (caseTokens d) =
      (p.rom.zipIdx.flatMap caseParts).flatMap (Part.tokens d) := by
    simp only [List.flatMap_assoc, flatMap_tokens_caseParts]
  have hparse (ps : List Part) (hps : ∀ p ∈ ps, p.Grouped) :
      (ps.map (Part.tokens d)).mapM (Part.parse d) = some ps := by
    induction ps with
    | nil => rfl
    | cons p ps ih =>
      rw [List.map_cons, List.mapM_cons, Part.parse_tokens (hps p List.mem_cons_self),
        ih fun q hq => hps q (List.mem_cons_of_mem p hq)]
      rfl
  have hgrouped : ∀ q ∈ p.rom.zipIdx.flatMap caseParts, q.Grouped := by
    intro q hq
    obtain ⟨x, -, hq⟩ := List.mem_flatMap.1 hq
    exact grouped_of_mem_caseParts q hq
  rw [casesOf, tokensOf_code, Option.bind_some, between_append, Option.bind_some, htokens,
    parts_flatMap_tokens, hparse _ hgrouped, Option.bind_some, casesOfParts_flatMap]

end CFamily

end MacroAsm
