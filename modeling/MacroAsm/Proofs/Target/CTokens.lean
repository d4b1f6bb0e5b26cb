import MacroAsm.Proofs.Isa.Numerals
import MacroAsm.Target.CFamily

set_option autoImplicit false

/-! # Tokens of the C family

A text is read in the order in which C does it: each comment is replaced by a blank, then the
characters are gathered to tokens. Only texts in which blanks or punctuation stand between operators
and their operands are understood; the code of a program is such a text (`CFamily.tokensOf_code`). -/

namespace MacroAsm

namespace CFamily

/-! ## Comments -/

/-- A text with a blank in place of each comment. The flag tells whether a comment is open. -/
def uncomment : Bool → List Char → List Char
  | _, [] => []
  | false, '/' :: '*' :: cs => ' ' :: uncomment true cs
  | true, '*' :: '/' :: cs => uncomment false cs
  | false, c :: cs => c :: uncomment false cs
  | true, _ :: cs => uncomment true cs

theorem uncomment_cons_of_ne {c : Char} (h : c ≠ '/') (cs : List Char) :
    uncomment false (c :: cs) = c :: uncomment false cs := by
  rw [uncomment]
  intro _ hc
  exact absurd hc h

theorem uncomment_append {cs : List Char} (h : '/' ∉ cs) (rest : List Char) :
    uncomment false (cs ++ rest) = cs ++ uncomment false rest := by
  induction cs with
  | nil => rfl
  | cons c cs ih =>
    rw [List.mem_cons, not_or] at h
    rw [List.cons_append, uncomment_cons_of_ne (Ne.symm h.1), ih h.2, List.cons_append]

/-- A comment goes on as long as its end is not next. -/
theorem uncomment_true_cons {c : Char} {cs : List Char} (h : c = '*' → cs.head? ≠ some '/') :
    uncomment true (c :: cs) = uncomment true cs := by
  rw [uncomment]
  intro cs' hc hcs
  exact h hc (hcs ▸ rfl)

/-- A text that cannot end a comment begins as it did. -/
theorem head?_commentSafe (cs : List Char) : (commentSafe cs).head? = cs.head? := by
  unfold commentSafe
  split <;> rfl

/-- A text that cannot end a comment is skipped, up to the end of the comment. -/
theorem uncomment_commentSafe (cs rest : List Char) :
    uncomment true (commentSafe cs ++ ' ' :: '*' :: '/' :: rest) = uncomment false rest := by
  fun_induction commentSafe cs with
  | case1 cs ih =>
    rw [List.cons_append, List.cons_append, List.cons_append, uncomment_true_cons (by simp),
      uncomment_true_cons (by simp), uncomment_true_cons (by simp), ih]
  | case2 c cs hend ih =>
    have hnext : c = '*' → (commentSafe cs ++ ' ' :: '*' :: '/' :: rest).head? ≠ some '/' := by
      intro hc
      cases cs with
      | nil => simp [commentSafe]
      | cons c' cs =>
        rw [List.head?_append, head?_commentSafe, List.head?_cons, Option.some_or]
        intro hc'
        exact hend cs hc (by rw [Option.some.inj hc'])
    rw [List.cons_append, uncomment_true_cons hnext, ih]
  | case3 =>
    rw [List.nil_append, uncomment_true_cons (by simp), uncomment]

/-! ## Lexemes -/

/-- The characters that stand between others. -/
def isBlank (c : Char) : Bool :=
  c == ' ' || c == '\n'

/-- The characters that are tokens wherever they stand. -/
def isPunctuation (c : Char) : Bool :=
  ['(', ')', '[', ']', '\x7b', '\x7d', ';', ':', ',', '~'].contains c

/-- Whether a token ends before a character. -/
def isApart (c : Char) : Bool :=
  isBlank c || isPunctuation c

/-- A token that began with these characters, if there are any, in front of others. -/
def flush : List Char → List (List Char) → List (List Char)
  | [], ls => ls
  | run, ls => run :: ls

/-- A character in front of a text, of which the first token may still grow. -/
def lexStep (c : Char) (s : List Char × List (List Char)) : List Char × List (List Char) :=
  if isBlank c then ([], flush s.1 s.2)
  else if isPunctuation c then ([], [c] :: flush s.1 s.2)
  else (c :: s.1, s.2)

/-- The tokens of a text without comments, as they are written. -/
def lexemes (cs : List Char) : List (List Char) :=
  flush (cs.foldr lexStep ([], [])).1 (cs.foldr lexStep ([], [])).2

@[simp] theorem lexemes_nil : lexemes [] = [] :=
  rfl

theorem flush_append (run : List Char) (ls ls' : List (List Char)) :
    flush run (ls ++ ls') = flush run ls ++ ls' := by
  cases run <;> rfl

/-- What follows the characters does not change how they are gathered. -/
theorem foldr_lexStep (cs : List Char) (ls : List (List Char)) :
    cs.foldr lexStep ([], ls) =
      ((cs.foldr lexStep ([], [])).1, (cs.foldr lexStep ([], [])).2 ++ ls) := by
  induction cs with
  | nil => rfl
  | cons c cs ih =>
    rw [List.foldr_cons, List.foldr_cons, ih]
    unfold lexStep
    split
    · rw [flush_append]
    · split
      · rw [flush_append, List.cons_append]
      · rfl

/-- A text may be cut before a character that ends the token in front of it. -/
theorem lexemes_append_cons {c : Char} (hc : isApart c = true) (cs rest : List Char) :
    lexemes (cs ++ c :: rest) = lexemes cs ++ lexemes (c :: rest) := by
  have hstate : (c :: rest).foldr lexStep ([], []) = ([], lexemes (c :: rest)) := by
    rw [isApart, Bool.or_eq_true] at hc
    unfold lexemes
    rw [List.foldr_cons]
    unfold lexStep
    split
    · rfl
    next hblank => rw [if_pos (hc.resolve_left hblank)]; rfl
  rw [lexemes, List.foldr_append, hstate, foldr_lexStep, flush_append, ← lexemes]

theorem lexemes_cons_blank {c : Char} (hc : isBlank c = true) (cs : List Char) :
    lexemes (c :: cs) = lexemes cs := by
  rw [lexemes, List.foldr_cons, lexStep, if_pos hc]
  rfl

theorem lexemes_cons_punctuation {c : Char} (hc : isPunctuation c = true)
    (hblank : isBlank c = false) (cs : List Char) : lexemes (c :: cs) = [c] :: lexemes cs := by
  rw [lexemes, List.foldr_cons, lexStep, if_neg (by simp [hblank]), if_pos hc]
  rfl

/-- Characters of which none ends a token are one token. -/
theorem lexemes_run {cs : List Char} (hne : cs ≠ []) (h : ∀ c ∈ cs, isApart c = false) :
    lexemes cs = [cs] := by
  have hrun : cs.foldr lexStep ([], []) = (cs, []) := by
    clear hne
    induction cs with
    | nil => rfl
    | cons c cs ih =>
      have hc := h c List.mem_cons_self
      rw [isApart, Bool.or_eq_false_iff] at hc
      rw [List.foldr_cons, ih fun x hx => h x (List.mem_cons_of_mem c hx), lexStep,
        if_neg (by simp [hc.1]), if_neg (by simp [hc.2])]
  rw [lexemes, hrun]
  cases cs with
  | nil => exact absurd rfl hne
  | cons c cs => rfl

/-! ## Tokens -/

/-- The tokens that the loop is made of. A variable with its increment counts as one. -/
inductive Token where
  | num (n : Nat)
  | byteMask
  | var (v : Var)
  | bank (b : Bank)
  | size (s : Size)
  | operator (op : BinaryOp)
  | tilde
  | byte
  | leftParen
  | rightParen
  | leftBracket
  | rightBracket
  | leftBrace
  | rightBrace
  | semicolon
  | colon
  | comma
  | gets
  | update (op : BinaryOp)
  | compare (equal : Bool)
  | int
  | while
  | switch
  | next (v : Var)
  | case
  | default
  | break
  | if
  | printf
  | numberLine
  | writeLine
  deriving DecidableEq, Repr

namespace Token

/-- A token as it is written. -/
def written : Token → String
  | num n => toString n
  | byteMask => "0xff"
  | var v => v.written
  | bank b => b.written
  | size s => s.written
  | operator op => op.written
  | tilde => "~"
  | byte => "byte"
  | leftParen => "("
  | rightParen => ")"
  | leftBracket => "["
  | rightBracket => "]"
  | leftBrace => "\x7b"
  | rightBrace => "\x7d"
  | semicolon => ";"
  | colon => ":"
  | comma => ","
  | gets => "="
  | update op => op.written ++ "="
  | compare equal => if equal then "==" else "!="
  | int => "int"
  | .while => "while"
  | switch => "switch"
  | next v => v.written ++ "++"
  | case => "case"
  | default => "default"
  | .break => "break"
  | .if => "if"
  | printf => "printf"
  | numberLine => "\"%d\\n\""
  | writeLine => "Console.WriteLine"

/-- The tokens that are no numbers. -/
def words : List Token :=
  [byteMask, var .pc, var .sp, var .running, bank .registers, bank .memory, bank .stack,
    size .memory, size .stack, operator .add, operator .sub, operator .mod, operator .and,
    operator .or, operator .xor, operator .shl, operator .shr, tilde, byte, leftParen, rightParen,
    leftBracket, rightBracket, leftBrace, rightBrace, semicolon, colon, comma, gets, update .add,
    update .sub, update .mod, update .and, update .or, update .xor, update .shl, update .shr,
    compare true, compare false, int, .while, switch, next .pc, next .sp, next .running, case,
    default, .break, .if, printf, numberLine, writeLine]

/-- The characters of a token. -/
def chars (t : Token) : List Char :=
  t.written.toList

/-- The token that is written in a certain way. A number has no zero in front of it. -/
def read (cs : List Char) : Option Token :=
  match words.find? fun t => t.chars == cs with
  | some t => some t
  | none =>
    let n := Nat.ofDigitChars 10 cs 0
    if (toString n).toList = cs then some (num n) else none

theorem num_or_mem_words (t : Token) : (∃ n, t = num n) ∨ t ∈ words := by
  cases t with
  | num n => exact .inl ⟨n, rfl⟩
  | var v => cases v <;> exact .inr (by decide)
  | bank b => cases b <;> exact .inr (by decide)
  | size s => cases s <;> exact .inr (by decide)
  | operator op => cases op <;> exact .inr (by decide)
  | update op => cases op <;> exact .inr (by decide)
  | compare equal => cases equal <;> exact .inr (by decide)
  | next v => cases v <;> exact .inr (by decide)
  | _ => exact .inr (by decide)

/-- What there is to know about the tokens that are no numbers. -/
theorem words_facts : ∀ t ∈ words, read t.chars = some t ∧ lexemes t.chars = [t.chars] ∧
    '/' ∉ t.chars ∧ t.chars.all Char.isDigit = false := by
  decide +kernel

theorem chars_num (n : Nat) : (num n).chars = Nat.toDigits 10 n :=
  Nat.toList_repr

theorem isDigit_of_mem_chars {n : Nat} {c : Char} (hc : c ∈ (num n).chars) : c.isDigit = true :=
  Numeral.isDigit_of_mem_toDigits (chars_num n ▸ hc)

/-- A token is found again. -/
@[simp] theorem read_chars (t : Token) : read t.chars = some t := by
  obtain ⟨n, rfl⟩ | ht := num_or_mem_words t
  · have hnone : words.find? (fun t => t.chars == (num n).chars) = none := by
      rw [List.find?_eq_none]
      intro t ht heq
      have hdigits := (words_facts t ht).2.2.2
      rw [beq_iff_eq.1 heq, List.all_eq_true.2 fun c hc => isDigit_of_mem_chars hc] at hdigits
      cases hdigits
    have hvalue : Nat.ofDigitChars 10 (num n).chars 0 = n := by
      rw [chars_num, Nat.ofDigitChars_ten_toDigits]
    rw [read, hnone, hvalue]
    exact if_pos rfl
  · exact (words_facts t ht).1

theorem slash_notMem_chars (t : Token) : '/' ∉ t.chars := by
  obtain ⟨n, rfl⟩ | ht := num_or_mem_words t
  · intro hc
    exact absurd (isDigit_of_mem_chars hc) (by decide)
  · exact (words_facts t ht).2.2.1

/-- A digit ends no token. -/
theorem isApart_of_isDigit {c : Char} (hc : c.isDigit = true) : isApart c = false := by
  have hne (x : Char) (hx : x.isDigit = false) : c ≠ x := by
    rintro rfl
    rw [hc] at hx
    cases hx
  simp [isApart, isBlank, isPunctuation, hne]

/-- A token is a token of its text. -/
theorem lexemes_chars (t : Token) : lexemes t.chars = [t.chars] := by
  obtain ⟨n, rfl⟩ | ht := num_or_mem_words t
  · have hne : (num n).chars ≠ [] := by
      rw [chars_num]
      exact Nat.toDigits_ne_nil
    exact lexemes_run hne fun c hc => isApart_of_isDigit (isDigit_of_mem_chars hc)
  · exact (words_facts t ht).2.1

end Token

/-! ## Texts without comments -/

/-- A text without comments is that of tokens. -/
structure Lexes (cs : List Char) (ts : List Token) : Prop where
  lexemes : lexemes cs = ts.map Token.chars
  plain : '/' ∉ cs

namespace Lexes

variable {cs cs' : List Char} {ts ts' : List Token}

theorem nil : Lexes [] [] :=
  ⟨rfl, List.not_mem_nil⟩

theorem token (t : Token) : Lexes t.chars [t] :=
  ⟨t.lexemes_chars, t.slash_notMem_chars⟩

/-- A blank separates tokens. -/
theorem blank (h : Lexes cs ts) (h' : Lexes cs' ts') : Lexes (cs ++ ' ' :: cs') (ts ++ ts') := by
  refine ⟨?_, by simp [h.plain, h'.plain]⟩
  rw [lexemes_append_cons rfl, lexemes_cons_blank rfl, h.lexemes, h'.lexemes, List.map_append]

/-- Punctuation separates tokens and is one. -/
theorem punctuation {c : Char} {t : Token} (hc : isPunctuation c = true)
    (ht : t.chars = [c]) (h : Lexes cs ts) (h' : Lexes cs' ts') :
    Lexes (cs ++ c :: cs') (ts ++ t :: ts') := by
  have hblank : isBlank c = false := by
    have hspace : c ≠ ' ' := by
      rintro rfl
      exact absurd hc (by decide)
    have hfeed : c ≠ '\n' := by
      rintro rfl
      exact absurd hc (by decide)
    simp [isBlank, hspace, hfeed]
  have hplain : '/' ≠ c := by
    rintro rfl
    exact absurd hc (by decide)
  have hapart : isApart c = true := by
    rw [isApart, hc, Bool.or_true]
  refine ⟨?_, by simp [h.plain, h'.plain, hplain]⟩
  rw [lexemes_append_cons hapart, lexemes_cons_punctuation hc hblank, h.lexemes, h'.lexemes,
    List.map_append, List.map_cons, ht]

end Lexes

/-! ## Tokens of statements -/

/-- The tokens of an expression. -/
def Expr.tokens : Expr → List Token
  | .num n => [.num n]
  | .byteMask => [.byteMask]
  | .size s => [.size s]
  | .var v => [.var v]
  | .cell b index => [.bank b] ++ .leftBracket :: (index.tokens ++ [.rightBracket])
  | .binary op l r => l.tokens ++ ([.operator op] ++ r.tokens)
  | .complement e => .tilde :: e.tokens
  | .byte e => .leftParen :: ([.byte] ++ .rightParen :: e.tokens)
  | .group e => .leftParen :: (e.tokens ++ [.rightParen])

theorem Expr.lexes_written (e : Expr) : Lexes e.written.toList e.tokens := by
  induction e with
  | num n => exact .token (.num n)
  | byteMask => exact .token .byteMask
  | size s => exact .token (.size s)
  | var v => exact .token (.var v)
  | cell b index ih =>
    have h := (Lexes.token (.bank b)).punctuation (c := '[') (t := .leftBracket) rfl rfl
      (ih.punctuation (c := ']') (t := .rightBracket) rfl rfl .nil)
    simpa [written, tokens, Token.chars, Token.written] using h
  | binary op l r hl hr =>
    have h := hl.blank ((Lexes.token (.operator op)).blank hr)
    simpa [written, tokens, Token.chars, Token.written] using h
  | complement e ih =>
    have h := Lexes.nil.punctuation (c := '~') (t := .tilde) rfl rfl ih
    simpa [written, tokens] using h
  | byte e ih =>
    have h := Lexes.nil.punctuation (c := '(') (t := .leftParen) rfl rfl
      ((Lexes.token .byte).punctuation (c := ')') (t := .rightParen) rfl rfl ih)
    simpa [written, tokens, Token.chars, Token.written] using h
  | group e ih =>
    have h := Lexes.nil.punctuation (c := '(') (t := .leftParen) rfl rfl
      (ih.punctuation (c := ')') (t := .rightParen) rfl rfl .nil)
    simpa [written, tokens] using h

/-- A place as an expression. -/
def Place.expr : Place → Expr
  | .var v => .var v
  | .cell b index => .cell b index

theorem Place.written_expr (p : Place) : p.expr.written = p.written := by
  cases p <;> rfl

/-- The tokens of a statement without its end. -/
def Stmt.tokens (d : Dialect) : Stmt → List Token
  | .assign p e => p.expr.tokens ++ .gets :: e.tokens
  | .update p op e => p.expr.tokens ++ .update op :: e.tokens
  | .branch e onZero p value =>
    .if :: .leftParen :: (e.tokens ++ .compare onZero :: .num 0 :: .rightParen ::
      (p.expr.tokens ++ .gets :: value.tokens))
  | .print e =>
    match d with
    | .c => .printf :: .leftParen :: .numberLine :: .comma :: (e.tokens ++ [.rightParen])
    | .csharp => .writeLine :: .leftParen :: (e.tokens ++ [.rightParen])

section Written

variable (d : Dialect) (p : Place) (e : Expr)

theorem Stmt.written_assign :
    (assign p e).written d = p.written ++ " = " ++ e.written ++ ";" :=
  rfl

theorem Stmt.written_update (op : BinaryOp) :
    (update p op e).written d = p.written ++ " " ++ op.written ++ "= " ++ e.written ++ ";" :=
  rfl

theorem Stmt.written_branch (onZero : Bool) (value : Expr) :
    (branch e onZero p value).written d = "if (" ++ e.written ++
      (if onZero then " == " else " != ") ++ "0) " ++ p.written ++ " = " ++ value.written ++ ";" :=
  rfl

theorem Stmt.written_print_c :
    (print e).written .c = "printf(\"%d\\n\", " ++ e.written ++ ");" :=
  rfl

theorem Stmt.written_print_csharp :
    (print e).written .csharp = "Console.WriteLine(" ++ e.written ++ ");" :=
  rfl

end Written

theorem Stmt.lexes_written (d : Dialect) (s : Stmt) :
    Lexes (s.written d).toList (s.tokens d ++ [.semicolon]) := by
  have hend {cs : List Char} {ts : List Token} (h : Lexes cs ts) :
      Lexes (cs ++ [';']) (ts ++ [.semicolon]) :=
    h.punctuation (c := ';') (t := .semicolon) rfl rfl .nil
  have hplace (p : Place) : Lexes p.written.toList p.expr.tokens :=
    p.written_expr ▸ p.expr.lexes_written
  cases s with
  | assign p e =>
    have h := hend ((hplace p).blank ((Lexes.token .gets).blank e.lexes_written))
    simpa [written_assign, tokens, Token.chars, Token.written] using h
  | update p op e =>
    have h := hend ((hplace p).blank ((Lexes.token (.update op)).blank e.lexes_written))
    simpa [written_update, tokens, Token.chars, Token.written] using h
  | branch e onZero p value =>
    have hassign := (hplace p).blank ((Lexes.token .gets).blank value.lexes_written)
    have hdigit : Lexes ['0'] [.num 0] := Lexes.token (.num 0)
    have hzero := hdigit.punctuation (c := ')') (t := .rightParen) rfl rfl
      (Lexes.nil.blank hassign)
    have hcondition := e.lexes_written.blank ((Lexes.token (.compare onZero)).blank hzero)
    have hif := (Lexes.token .if).blank
      (Lexes.nil.punctuation (c := '(') (t := .leftParen) rfl rfl hcondition)
    have h := hend hif
    cases onZero <;> simpa [written_branch, tokens, Token.chars, Token.written] using h
  | print e =>
    have hvalue := e.lexes_written.punctuation (c := ')') (t := .rightParen) rfl rfl .nil
    cases d with
    | c =>
      have h := hend ((Lexes.token .printf).punctuation (c := '(') (t := .leftParen) rfl rfl
        ((Lexes.token .numberLine).punctuation (c := ',') (t := .comma) rfl rfl
          (Lexes.nil.blank hvalue)))
      simpa [written_print_c, tokens, Token.chars, Token.written] using h
    | csharp =>
      have h := hend ((Lexes.token .writeLine).punctuation (c := '(') (t := .leftParen) rfl rfl
        hvalue)
      simpa [written_print_csharp, tokens, Token.chars, Token.written] using h

/-! ## Tokens of the loop -/

/-- The tokens of a case. -/
def caseTokens (d : Dialect) (x : RomWord × Nat) : List Token :=
  [.case, .num x.2, .colon] ++ ((stmts x.1).flatMap fun s => s.tokens d ++ [.semicolon]) ++
    [.break, .semicolon]

/-- The tokens before the cases, line by line. -/
def headerLines : List (List Token) :=
  [[.int, .var .pc, .gets, .num 0, .semicolon],
    [.int, .var .sp, .gets, .num 0, .semicolon],
    [.int, .var .running, .gets, .num 1, .semicolon],
    [.while, .leftParen, .var .running, .compare false, .num 0, .rightParen],
    [.leftBrace],
    [.switch, .leftParen, .next .pc, .rightParen],
    [.leftBrace]]

/-- The tokens behind the cases, line by line. -/
def footerLines : List (List Token) :=
  [[.default, .colon],
    [.var .running, .gets, .num 0, .semicolon],
    [.break, .semicolon],
    [.rightBrace],
    [.rightBrace]]

/-- The tokens of a text. -/
def tokensOf (text : String) : Option (List Token) :=
  (lexemes (uncomment false text.toList)).mapM Token.read

/-- Whether a line is that of tokens, and leaves no comment open. -/
def LineOf (l : String) (ts : List Token) : Prop :=
  ∀ rest : List Char, (∀ c ∈ rest.head?, c = '\n') →
    lexemes (uncomment false (l.toList ++ rest)) =
      ts.map Token.chars ++ lexemes (uncomment false rest)

/-- What begins with a new line is cut from what stands before it. -/
theorem lexemes_append_uncomment (cs : List Char) {rest : List Char}
    (hrest : ∀ c ∈ rest.head?, c = '\n') :
    lexemes (cs ++ uncomment false rest) = lexemes cs ++ lexemes (uncomment false rest) := by
  cases rest with
  | nil => simp [uncomment]
  | cons c rest =>
    obtain rfl := hrest c rfl
    rw [uncomment_cons_of_ne (by decide), lexemes_append_cons rfl]

theorem Lexes.lineOf {l : String} {ts : List Token} (h : Lexes l.toList ts) : LineOf l ts := by
  intro rest hrest
  rw [uncomment_append h.plain, lexemes_append_uncomment _ hrest, h.lexemes]

/-- The lines of a text are read one by one. -/
theorem lexemes_intercalate (items : List (String × List Token))
    (h : ∀ x ∈ items, LineOf x.1 x.2) :
    lexemes (uncomment false (String.intercalate "\n" (items.map Prod.fst)).toList) =
      (items.flatMap Prod.snd).map Token.chars := by
  have hlast {x : String × List Token} (hx : LineOf x.1 x.2) :
      lexemes (uncomment false x.1.toList) = x.2.map Token.chars := by
    have hx := hx [] (by simp)
    rwa [List.append_nil, uncomment, lexemes_nil, List.append_nil] at hx
  induction items with
  | nil => rfl
  | cons x items ih =>
    have hx := h x List.mem_cons_self
    have ih := ih fun y hy => h y (List.mem_cons_of_mem x hy)
    cases items with
    | nil =>
      rw [List.map_singleton, String.intercalate_singleton, hlast hx, List.flatMap_singleton]
    | cons y items =>
      have hrest := hx ('\n' :: (String.intercalate "\n" ((y :: items).map Prod.fst)).toList)
        (by simp)
      rw [uncomment_cons_of_ne (by decide), lexemes_cons_blank rfl, ih] at hrest
      rw [List.flatMap_cons, List.map_append, ← hrest, List.map_cons, List.map_cons,
        String.intercalate_cons_cons, String.toList_append, String.toList_append,
        List.append_assoc]
      rfl

/-- Blanks at the beginning of a line are no tokens. -/
theorem lexes_indented {cs : List Char} {ts : List Token} (n : Nat) (h : Lexes cs ts) :
    Lexes (List.replicate n ' ' ++ cs) ts := by
  induction n with
  | zero => exact h
  | succ n ih => exact Lexes.nil.blank ih

/-- The instruction of a case is in a comment. -/
theorem lineOf_caseLine (pc : Nat) (source : Option String) :
    LineOf (caseLine pc source) [.case, .num pc, .colon] := by
  have hlabel : Lexes ("        case ".toList ++ (toString pc).toList ++ [':'])
      [.case, .num pc, .colon] := by
    have hcase := (Lexes.token .case).blank ((Lexes.token (.num pc)).punctuation (c := ':')
      (t := .colon) rfl rfl .nil)
    have h := lexes_indented 8 hcase
    simpa [Token.chars, Token.written, List.replicate] using h
  cases source with
  | none =>
    have hline : caseLine pc none = "        case " ++ toString pc ++ ":" := rfl
    refine Lexes.lineOf ?_
    rwa [hline, String.toList_append, String.toList_append]
  | some source =>
    intro rest hrest
    have hline : (caseLine pc (some source)).toList =
        "        case ".toList ++ (toString pc).toList ++ [':'] ++
          (" /* ".toList ++ commentSafe source.toList ++ " */".toList) := by
      have htext : caseLine pc (some source) = "        case " ++ toString pc ++ ": /* " ++
          String.ofList (commentSafe source.toList) ++ " */" := rfl
      have hcolon : ": /* ".toList = [':'] ++ " /* ".toList := by decide
      simp only [htext, String.toList_append, String.toList_ofList, hcolon, List.append_assoc]
    -- the comment becomes a blank
    have hcomment : uncomment false (" /* ".toList ++ commentSafe source.toList ++ " */".toList ++
        rest) = ' ' :: ' ' :: uncomment false rest := by
      rw [List.append_assoc, List.append_assoc]
      show uncomment false (' ' :: '/' :: '*' :: ' ' :: (_ ++ ' ' :: '*' :: '/' :: rest)) = _
      rw [uncomment_cons_of_ne (by decide), uncomment, uncomment_true_cons (by simp),
        uncomment_commentSafe]
    rw [hline, List.append_assoc, uncomment_append hlabel.plain, hcomment, lexemes_append_cons rfl,
      lexemes_cons_blank rfl, lexemes_cons_blank rfl, hlabel.lexemes]

/-- The lines of a case, with their tokens. -/
def caseItems (d : Dialect) (source : Array String) (x : RomWord × Nat) :
    List (String × List Token) :=
  (caseLine x.2 source[x.2]?, [.case, .num x.2, .colon]) ::
    (stmts x.1).map (fun s => ("            " ++ s.written d, s.tokens d ++ [.semicolon])) ++
    [("            break;", [.break, .semicolon])]

theorem map_fst_caseItems (d : Dialect) (source : Array String) (x : RomWord × Nat) :
    (caseItems d source x).map Prod.fst = caseLines d source x := by
  simp only [caseItems, caseLines, List.map_append, List.map_cons, List.map_map, List.map_nil]
  rfl

theorem flatMap_snd_caseItems (d : Dialect) (source : Array String) (x : RomWord × Nat) :
    (caseItems d source x).flatMap Prod.snd = caseTokens d x := by
  simp only [caseItems, caseTokens, List.flatMap_append, List.flatMap_cons, List.flatMap_map,
    List.flatMap_nil, List.append_nil]

theorem lineOf_caseItems {d : Dialect} {source : Array String} {x : RomWord × Nat} :
    ∀ y ∈ caseItems d source x, LineOf y.1 y.2 := by
  intro y hy
  rw [caseItems, List.mem_append, List.mem_cons, List.mem_map, List.mem_singleton] at hy
  obtain (rfl | ⟨s, -, rfl⟩) | rfl := hy
  · exact lineOf_caseLine _ _
  · refine Lexes.lineOf ?_
    rw [String.toList_append]
    exact lexes_indented 12 (s.lexes_written d)
  · exact Lexes.lineOf ⟨by decide +kernel, by decide +kernel⟩

/-- The lines of the code of a program, with their tokens. -/
def items (d : Dialect) (p : Program) : List (String × List Token) :=
  opening.zip headerLines ++ p.rom.zipIdx.flatMap (caseItems d p.source.toArray) ++
    closing.zip footerLines

/-- The lines of the loop itself are always the same. -/
theorem lexes_frame : ∀ x ∈ opening.zip headerLines ++ closing.zip footerLines,
    lexemes x.1.toList = x.2.map Token.chars ∧ '/' ∉ x.1.toList := by
  decide +kernel

theorem lineOf_items {d : Dialect} {p : Program} : ∀ x ∈ items d p, LineOf x.1 x.2 := by
  intro x hx
  have hframe (hx : x ∈ opening.zip headerLines ++ closing.zip footerLines) : LineOf x.1 x.2 :=
    Lexes.lineOf ⟨(lexes_frame x hx).1, (lexes_frame x hx).2⟩
  rw [items, List.mem_append, List.mem_append] at hx
  obtain (hx | hx) | hx := hx
  · exact hframe (List.mem_append_left _ hx)
  · obtain ⟨y, -, hx⟩ := List.mem_flatMap.1 hx
    exact lineOf_caseItems x hx
  · exact hframe (List.mem_append_right _ hx)

/-- The tokens of the code of a program are those of its cases, between those of the loop. -/
theorem tokensOf_code (d : Dialect) (p : Program) :
    tokensOf (code d p) = some
      (headerLines.flatten ++ p.rom.zipIdx.flatMap (caseTokens d) ++ footerLines.flatten) := by
  have hcode : code d p = String.intercalate "\n" ((items d p).map Prod.fst) := by
    simp only [code, items, List.map_append, List.map_flatMap, map_fst_caseItems]
    rfl
  have htokens : (items d p).flatMap Prod.snd =
      headerLines.flatten ++ p.rom.zipIdx.flatMap (caseTokens d) ++ footerLines.flatten := by
    simp only [items, List.flatMap_append, List.flatMap_assoc, flatMap_snd_caseItems]
    rfl
  have hread (ts : List Token) : (ts.map Token.chars).mapM Token.read = some ts := by
    induction ts with
    | nil => rfl
    | cons t ts ih =>
      rw [List.map_cons, List.mapM_cons, Token.read_chars, ih]
      rfl
  rw [tokensOf, hcode, lexemes_intercalate _ lineOf_items, htokens, hread]

end CFamily

end MacroAsm
