import MacroAsm.Proofs.Target.NasmLabels
import MacroAsm.Proofs.X86.Processor

set_option autoImplicit false

/-! # Assembler text as a program in memory

Operations are read as instructions, and a text is put into memory: its instructions stand one behind
the other, each label names the address in front of what follows it, and its data lie in regions that do
not overlap (`Image.Assembles`). How long an instruction is, and where a part of the output begins, is
left open. -/

namespace MacroAsm

namespace X86

open Assembly

/-! ## Operands -/

/-- A decimal number. -/
def number? (cs : List Char) : Option Nat :=
  if cs ≠ [] ∧ cs.all Char.isDigit then some (Nat.ofDigitChars 10 cs 0) else none

/-- The names of registers. -/
def registers : List (String × Reg × Width) :=
  [("al", .rax, .byte), ("eax", .rax, .dword), ("rax", .rax, .qword),
   ("bl", .rbx, .byte), ("ebx", .rbx, .dword), ("rbx", .rbx, .qword),
   ("cl", .rcx, .byte), ("ecx", .rcx, .dword), ("rcx", .rcx, .qword),
   ("dl", .rdx, .byte), ("edx", .rdx, .dword), ("rdx", .rdx, .qword),
   ("sil", .rsi, .byte), ("esi", .rsi, .dword), ("rsi", .rsi, .qword),
   ("dil", .rdi, .byte), ("edi", .rdi, .dword), ("rdi", .rdi, .qword),
   ("bpl", .rbp, .byte), ("ebp", .rbp, .dword), ("rbp", .rbp, .qword),
   ("spl", .rsp, .byte), ("esp", .rsp, .dword), ("rsp", .rsp, .qword),
   ("r12b", .r12, .byte), ("r12d", .r12, .dword), ("r12", .r12, .qword),
   ("r13b", .r13, .byte), ("r13d", .r13, .dword), ("r13", .r13, .qword)]

/-- A part of an address: a number, a register, which a number may scale, or a name. -/
def term? (cs : List Char) : Option Term :=
  match (cs.splitOn '*').map Text.trim with
  | [a] =>
    match number? a, registers.lookup (String.ofList a) with
    | some n, _ => some (.num n)
    | none, some (r, .qword) => some (.reg r 1)
    | none, some _ => none
    | none, none => if a ≠ [] ∧ a.all isNameChar then some (.sym (String.ofList a)) else none
  | [a, b] =>
    match registers.lookup (String.ofList a), number? b with
    | some (r, .qword), some n => some (.reg r n)
    | _, _ => none
  | _ => none

/-- An address between brackets, of which the first is already read. -/
def address? (cs : List Char) : Option (List Term) :=
  if cs.getLast? = some ']' then (cs.dropLast.splitOn '+').mapM term? else none

/-- A number, a register or a name. -/
def word? (cs : List Char) : Option Operand :=
  match number? cs, registers.lookup (String.ofList cs) with
  | some n, _ => some (.num n)
  | none, some (r, w) => some (.reg r w)
  | none, none => some (.sym (String.ofList cs))

/-- The words that say how wide a place in memory is. -/
def widths : List (String × Width) :=
  [("byte", .byte), ("dword", .dword), ("qword", .qword)]

/-- An operand. -/
def operand? (text : String) : Option Operand :=
  let cs := text.toList
  let word := cs.takeWhile isNameChar
  match word, Text.trimStart (cs.dropWhile isNameChar) with
  | [], '[' :: inside => (address? inside).map (.mem none)
  | [], '-' :: ds => (number? ds).map fun n => .num (-n)
  | [], _ => none
  | _ :: _, [] => word? word
  | _ :: _, '[' :: inside =>
    (widths.lookup (String.ofList word)).bind fun w => (address? inside).map (.mem (some w))
  | _ :: _, _ => none

/-- The width that an operand says. -/
def Operand.width? : Operand → Option Width
  | .reg _ w => some w
  | .mem w _ => w
  | .num _ => none
  | .sym _ => none

/-- The width of two operands; they may not say different ones. -/
def commonWidth? (a b : Operand) : Option Width :=
  match a.width?, b.width? with
  | some w, some w' => if w = w' then some w else none
  | some w, none => some w
  | none, w => w

/-! ## Instructions -/

/-- Operations on two things, by their names. -/
def binaryOps : List (String × BinaryOp) :=
  [("mov", .mov), ("add", .add), ("sub", .sub), ("and", .and), ("or", .or), ("xor", .xor),
   ("shl", .shl), ("shr", .shr), ("cmp", .cmp), ("test", .test)]

/-- Operations on one thing, by their names. -/
def unaryOps : List (String × UnaryOp) :=
  [("not", .not), ("inc", .inc), ("dec", .dec)]

/-- Jumps by their names. -/
def jumps : List (String × Condition) :=
  [("jmp", .always), ("je", .equal), ("jz", .equal), ("jne", .notEqual), ("jnz", .notEqual),
   ("jb", .below), ("jae", .notBelow)]

/-- A name that begins with a dot belongs to the label before it. -/
def qualify (scope name : String) : String :=
  if name.toList.head? = some '.' then scope ++ name else name

/-- An instruction with one operand. -/
def ofOperand (scope mnemonic : String) : Operand → Option Instr
  | .sym name =>
    if mnemonic = "call" then some (.call (qualify scope name))
    else (jumps.lookup mnemonic).map fun c => .jump c (qualify scope name)
  | .num _ => none
  | .reg r w =>
    if mnemonic = "push" ∧ w = .qword then some (.op (.push r))
    else if mnemonic = "pop" ∧ w = .qword then some (.op (.pop r))
    else if mnemonic = "div" then some (.op (.div w (.reg r w)))
    else (unaryOps.lookup mnemonic).map fun op => .op (.unary op w (.reg r w))
  | .mem w ts =>
    if mnemonic = "jmp" ∧ w = none then some (.jumpThrough ts)
    else if mnemonic = "div" then w.map fun w' => .op (.div w' (.mem w ts))
    else w.bind fun w' => (unaryOps.lookup mnemonic).map fun op => .op (.unary op w' (.mem w ts))

/-- An instruction with two operands, of which one at most is in memory. -/
def ofOperandPair (mnemonic : String) (a b : Operand) : Option Instr :=
  match binaryOps.lookup mnemonic, a, b with
  | some _, .mem _ _, .mem _ _ => none
  | some op, a, b => (commonWidth? a b).map fun w => .op (.binary op w a b)
  | none, .reg r w, b =>
    if mnemonic = "movzx" then b.width?.map fun narrow => .op (.movzx r w b narrow)
    else
      match mnemonic, w, b with
      | "lea", .qword, .mem none ts => some (.op (.lea r ts))
      | _, _, _ => none
  | none, _, _ => none

/-- A function that another program brings, as a call names it. -/
def linked? (text : String) : Option String :=
  let cs := text.toList
  if Text.trimStart (cs.dropWhile isNameChar) = "wrt ..plt".toList then
    some (String.ofList (cs.takeWhile isNameChar))
  else none

/-- The instruction that an operation is read as, behind a label. -/
def instr? (scope mnemonic : String) (args : List String) : Option Instr :=
  match args with
  | [] =>
    if mnemonic = "nop" then some (.op .nop) else if mnemonic = "ret" then some .ret else none
  | [x] =>
    if mnemonic = "call" ∧ (linked? x).isSome then (linked? x).map .callLinked
    else (operand? x).bind (ofOperand scope mnemonic)
  | [x, y] => (operand? x).bind fun a => (operand? y).bind (ofOperandPair mnemonic a)
  | _ => none

/-- The instruction that an element is. -/
def elementInstr? (scope : String) : Element → Option Instr
  | .label _ => none
  | .operation mnemonic args => instr? scope mnemonic args

/-! ## Data -/

/-- What a line of data puts into memory. -/
inductive Datum where
  | reserved (n : Nat)
  | bytes (bs : List UInt8)
  | words (ws : List Word)

namespace Datum

/-- The number of bytes. -/
def size : Datum → Nat
  | reserved n => n
  | bytes bs => bs.length
  | words ws => 8 * ws.length

/-- Whether memory holds it at an address. Reserved bytes may be anything. -/
def In (m : Memory) (a : Word) : Datum → Prop
  | reserved _ => True
  | bytes bs => ∀ (i : Nat) (h : i < bs.length), m (offset a i) = bs[i]
  | words ws => ∀ (i : Nat) (h : i < ws.length), load m (offset a (8 * i)) 8 = ws[i].toNat

theorem In.congr {m m' : Memory} {a : Word} {d : Datum} (h : d.In m a)
    (heq : ∀ i < d.size, m' (offset a i) = m (offset a i)) : d.In m' a := by
  cases d with
  | reserved n => trivial
  | bytes bs => exact fun i hi => (heq i hi).trans (h i hi)
  | words ws =>
    intro i hi
    rw [← h i hi]
    refine load_congr fun j hj => ?_
    rw [offset_offset]
    refine heq _ ?_
    show 8 * i + j < 8 * ws.length
    omega

end Datum

/-- The bytes that a quoted text of ASCII characters, or a number, stands for. -/
def bytesOf (text : String) : List UInt8 :=
  match text.toList with
  | '"' :: cs => cs.dropLast.map fun c => UInt8.ofNat c.toNat
  | cs => ((number? cs).map UInt8.ofNat).toList

namespace Image

variable (im : Image)

/-- What a number or a name stands for. -/
def value (text : String) : Word :=
  match number? text.toList with
  | some n => BitVec.ofNat 64 n
  | none => im.symbol text

/-- The data that an element is. -/
def datum? : Element → Option Datum
  | .operation "resb" [n] => some (.reserved (im.value n).toNat)
  | .operation "db" args => some (.bytes (args.flatMap bytesOf))
  | .operation "dq" args => some (.words (args.map im.value))
  | _ => none

/-- The number of bytes of the data that come first. -/
def extent : List Element → Nat
  | [] => 0
  | e :: es =>
    match im.datum? e with
    | some d => d.size + extent es
    | none => 0

/-- Whether memory holds these data from an address on. -/
def Holding (m : Memory) : List Element → Word → Prop
  | [], _ => True
  | e :: es, a =>
    match im.datum? e with
    | some d => d.In m a ∧ Holding m es (offset a d.size)
    | none => True

variable {im}

theorem Holding.congr {m m' : Memory} {es : List Element} {a : Word} (h : im.Holding m es a)
    (heq : ∀ i < im.extent es, m' (offset a i) = m (offset a i)) : im.Holding m' es a := by
  induction es generalizing a with
  | nil => trivial
  | cons e es ih =>
    rw [Holding] at h ⊢
    rw [extent] at heq
    split
    · next d hd =>
      simp only [hd] at h heq
      refine ⟨h.1.congr fun i hi => heq i (by omega), ih h.2 fun i hi => ?_⟩
      rw [offset_offset]
      exact heq _ (by omega)
    · trivial

/-- A table takes eight bytes for each of its words. -/
theorem extent_words (rows : List (List String)) (rest : List Element) :
    im.extent (rows.map (.operation "dq") ++ rest) = 8 * rows.flatten.length + im.extent rest := by
  induction rows with
  | nil => simp
  | cons row rows ih =>
    have hrow : im.extent ((row :: rows).map (.operation "dq") ++ rest) =
        8 * (row.map im.value).length + im.extent (rows.map (.operation "dq") ++ rest) := rfl
    rw [hrow, ih, List.length_map, List.flatten_cons, List.length_append]
    omega

/-- The words of a table are found one behind the other. -/
theorem Holding.words {m : Memory} {rows : List (List String)} {rest : List Element} {a : Word}
    (h : im.Holding m (rows.map (.operation "dq") ++ rest) a) {i : Nat}
    (hi : i < rows.flatten.length) :
    load m (offset a (8 * i)) 8 = (im.value rows.flatten[i]).toNat := by
  induction rows generalizing a i with
  | nil => exact absurd hi (Nat.not_lt_zero i)
  | cons row rows ih =>
    obtain ⟨hrow, hrows⟩ : (Datum.words (row.map im.value)).In m a ∧
        im.Holding m (rows.map (Element.operation "dq") ++ rest)
          (offset a (8 * (row.map im.value).length)) := h
    rw [List.length_map] at hrows
    by_cases hlt : i < row.length
    · have hword := hrow i (by rwa [List.length_map])
      simpa [List.getElem_append_left, hlt] using hword
    · have hle : row.length ≤ i := Nat.le_of_not_lt hlt
      rw [List.flatten_cons, List.length_append] at hi
      have hword := ih hrows (i := i - row.length) (by omega)
      have hplace : 8 * row.length + 8 * (i - row.length) = 8 * i := by omega
      rw [offset_offset, hplace] at hword
      simpa [List.getElem_append_right, hle] using hword

/-- Where the words of a table are found, memory holds it. -/
theorem Holding.of_words {m : Memory} {rows : List (List String)} {rest : List Element} {a : Word}
    (hwords : ∀ (i : Nat) (hi : i < rows.flatten.length),
      load m (offset a (8 * i)) 8 = (im.value rows.flatten[i]).toNat)
    (hrest : im.Holding m rest (offset a (8 * rows.flatten.length))) :
    im.Holding m (rows.map (.operation "dq") ++ rest) a := by
  induction rows generalizing a with
  | nil => simpa using hrest
  | cons row rows ih =>
    have hlength : (row :: rows).flatten.length = row.length + rows.flatten.length := by simp
    have hrow : (Datum.words (row.map im.value)).In m a := by
      intro i hi
      rw [List.length_map] at hi
      have hword := hwords i (by omega)
      simpa [List.getElem_append_left, hi] using hword
    have hrows : im.Holding m (rows.map (Element.operation "dq") ++ rest)
        (offset a (8 * (row.map im.value).length)) := by
      rw [List.length_map]
      refine ih (fun i hi => ?_) ?_
      · have hword := hwords (row.length + i) (by omega)
        rw [offset_offset, ← Nat.mul_add, hword]
        simp [List.getElem_append_right]
      · rw [offset_offset, ← Nat.mul_add, ← hlength]
        exact hrest
    exact ⟨hrow, hrows⟩

/-! ## A text in memory -/

variable (im)

/-- The number that these elements give a label in front of them. -/
def equated? : List Element → Option Word
  | .operation "equ" [arg] :: _ => some (im.value arg)
  | _ => none

/-- The name that an operation replaces, and the number that it stands for. -/
def replaced? : String → List String → Option (String × Word)
  | "%define", [text] =>
    let cs := text.toList
    some (String.ofList (cs.takeWhile isNameChar),
      im.value (String.ofList (Text.trimStart (cs.dropWhile isNameChar))))
  | _, _ => none

/-- The elements stand in memory from an address on, behind a label. What is no instruction may be
    anywhere. -/
def Laid : String → List Element → Word → Prop
  | _, [], _ => True
  | scope, .label name :: es, a =>
    im.symbol (qualify scope name) = (im.equated? es).getD a ∧
      Laid (if name.toList.head? = some '.' then scope else name) es a
  | scope, .operation mnemonic args :: es, a =>
    (∀ x ∈ im.replaced? mnemonic args, im.symbol x.1 = x.2) ∧
      ∃ next, (∀ i ∈ instr? scope mnemonic args, im.code a = some (i, next)) ∧ Laid scope es next

/-- The region of the data behind a label. -/
def object (es : List Element) (name : String) : Region :=
  ⟨im.symbol name, im.extent (after es name)⟩

/-- A text as a program in memory, which has its own data and a stack for the processor. -/
structure Assembles (es : List Element) (stack : Region) : Prop where
  /-- Instructions stand where the labels say, and names stand for their numbers. -/
  laid : ∃ a, im.Laid "" es a
  /-- The data behind different labels do not overlap. -/
  apart : ∀ {x y : String}, .label x ∈ es → .label y ∈ es → x ≠ y →
    (im.object es x).Apart (im.object es y)
  /-- Nor do they overlap with the stack. -/
  stack : ∀ {x : String}, .label x ∈ es → (im.object es x).Apart stack

variable {im}

/-- A global label names the address of what follows it, or the number that this gives it. -/
theorem Laid.behind {name scope : String} {pre post : List Element} {a : Word}
    (h : im.Laid scope (pre ++ .label name :: post) a) (hglobal : name.toList.head? ≠ some '.') :
    ∃ b, im.symbol name = (im.equated? post).getD b ∧ im.Laid name post b := by
  induction pre generalizing scope a with
  | nil =>
    obtain ⟨hname, hpost⟩ := h
    rw [if_neg hglobal] at hpost
    rw [qualify, if_neg hglobal] at hname
    exact ⟨a, hname, hpost⟩
  | cons e pre ih =>
    cases e with
    | label x => exact ih h.2
    | operation m args =>
      obtain ⟨-, next, -, hrest⟩ := h
      exact ih hrest

/-- What follows a label stands where the label says. -/
theorem Assembles.behind {es : List Element} {stack : Region} (h : im.Assembles es stack)
    {name : String} (hname : .label name ∈ es) (hglobal : name.toList.head? ≠ some '.')
    (hnumber : im.equated? (after es name) = none) :
    im.Laid name (after es name) (im.symbol name) := by
  obtain ⟨a, ha⟩ := h.laid
  obtain ⟨pre, hpre⟩ := exists_after hname
  rw [hpre] at ha
  obtain ⟨b, hb, hlaid⟩ := ha.behind hglobal
  rw [hnumber, Option.getD_none] at hb
  rwa [hb]

/-- A name that is made equal to a number stands for it. -/
theorem Assembles.equal {es rest : List Element} {stack : Region} (h : im.Assembles es stack)
    {name arg : String} (hname : .label name ∈ es) (hglobal : name.toList.head? ≠ some '.')
    (hafter : after es name = .operation "equ" [arg] :: rest) : im.symbol name = im.value arg := by
  obtain ⟨a, ha⟩ := h.laid
  obtain ⟨pre, hpre⟩ := exists_after hname
  rw [hpre, hafter] at ha
  obtain ⟨b, hb, -⟩ := ha.behind hglobal
  exact hb

theorem Laid.replaced {scope m : String} {args : List String} {es : List Element} {a : Word}
    (h : im.Laid scope es a) (hmem : .operation m args ∈ es) :
    ∀ x ∈ im.replaced? m args, im.symbol x.1 = x.2 := by
  induction es generalizing scope a with
  | nil => cases hmem
  | cons e es ih =>
    cases e with
    | label x => exact ih h.2 (by simpa using hmem)
    | operation m' args' =>
      obtain ⟨hreplaced, next, -, hrest⟩ := h
      rcases List.mem_cons.1 hmem with heq | hmem
      · cases heq
        exact hreplaced
      · exact ih hrest hmem

/-- A name and a number are found again. -/
theorem cut_define {name : String} (hname : IsName name) (n : Nat) :
    (name ++ " " ++ toString n).toList.takeWhile isNameChar = name.toList ∧
      Text.trimStart ((name ++ " " ++ toString n).toList.dropWhile isNameChar) =
        (toString n).toList := by
  have hspace : isNameChar ' ' = false := by decide
  have hlist : (name ++ " " ++ toString n).toList = name.toList ++ ' ' :: (toString n).toList := by
    simp
  have hblank : Text.Blank [' '] := by simp [Text.Blank]; decide
  have hstart : Text.trimStart (' ' :: (toString n).toList) = Text.trimStart (toString n).toList :=
    Text.trimStart_append_of_blank hblank
  constructor
  · rw [hlist, List.takeWhile_append_of_pos hname.name, List.takeWhile_cons_of_neg (by simp [hspace]),
      List.append_nil]
  · rw [hlist, List.dropWhile_append_of_pos hname.name,
      List.dropWhile_cons_of_neg (by simp [hspace]), hstart,
      Text.trimStart_eq_self (Nasm.isOperand_toString n).trimmed.head]

theorem replaced?_define {name : String} (hname : IsName name) (n : Nat) :
    im.replaced? "%define" [name ++ " " ++ toString n] = some (name, im.value (toString n)) := by
  obtain ⟨htake, hdrop⟩ := cut_define hname n
  rw [replaced?]
  simp only [htake, hdrop, String.ofList_toList]

/-- Operations that are read as instructions stand in memory as these. -/
theorem Laid.code {scope : String} {es rest : List Element} {is : List Instr} {a : Word}
    (h : im.Laid scope (es ++ rest) a) (hread : es.mapM (elementInstr? scope) = some is) :
    ∃ b, im.Code is a b ∧ im.Laid scope rest b := by
  induction es generalizing is a with
  | nil =>
    obtain rfl : [] = is := by simpa using hread
    exact ⟨a, rfl, h⟩
  | cons e es ih =>
    rw [List.mapM_cons] at hread
    obtain ⟨i, hi, hread⟩ := Option.bind_eq_some_iff.1 hread
    obtain ⟨is', his, hread⟩ := Option.bind_eq_some_iff.1 hread
    obtain rfl : i :: is' = is := Option.some.inj hread
    cases e with
    | label x => cases hi
    | operation m args =>
      obtain ⟨-, next, hcode, hrest⟩ := h
      obtain ⟨b, hb, hlaid⟩ := ih hrest his
      exact ⟨b, ⟨next, hcode i hi, hb⟩, hlaid⟩

theorem Laid.next {scope : String} {e : Element} {rest : List Element} {i : Instr} {a : Word}
    (h : im.Laid scope (e :: rest) a) (hread : elementInstr? scope e = some i) :
    ∃ b, im.Code [i] a b ∧ im.Laid scope rest b := by
  have h' : im.Laid scope ([e] ++ rest) a := h
  exact h'.code (by simp [hread])

/-- A label between instructions names the address there. -/
theorem Laid.label {name scope : String} {rest : List Element} {a : Word}
    (h : im.Laid scope (.label name :: rest) a) (hnumber : im.equated? rest = none) :
    im.symbol (qualify scope name) = a ∧
      im.Laid (if name.toList.head? = some '.' then scope else name) rest a := by
  obtain ⟨hname, hrest⟩ := h
  rw [hnumber] at hname
  exact ⟨hname, hrest⟩

end Image

/-! ## Numbers and names as they are read -/

theorem number?_toString (n : Nat) : number? (toString n).toList = some n := by
  have hdigits : (toString n).toList ≠ [] ∧ (toString n).toList.all Char.isDigit = true :=
    ⟨by simp, List.all_eq_true.2 fun c hc => Nasm.isDigit_of_mem_toString hc⟩
  rw [number?, if_pos hdigits]
  simp

theorem value_toString (im : Image) (n : Nat) : im.value (toString n) = BitVec.ofNat 64 n := by
  rw [Image.value, number?_toString]

end X86

end MacroAsm
