import MacroAsm.Proofs.Isa.Instructions
import MacroAsm.Proofs.Lists
import MacroAsm.Proofs.Template.Rendering
import Mathlib.Data.List.TakeWhile

set_option autoImplicit false

/-! # Reading assembler text

What the assembler makes of a text, as far as labels are concerned: a line ends at a comment, defines
a label by a colon or by `equ`, and has an operation with its operands. A line that ends with a
backslash goes on in the next one. -/

namespace MacroAsm

namespace Assembly

/-! ## Elements of a text -/

/-- What a text says: a place or a number gets a name, or an operation follows. -/
inductive Element where
  | label (name : String)
  | operation (mnemonic : String) (operands : List String)
  deriving DecidableEq, Repr

/-- The name that is defined. -/
def Element.label? : Element → Option String
  | .label name => some name
  | .operation _ _ => none

@[simp] theorem Element.label?_label (name : String) : (label name).label? = some name := rfl

@[simp] theorem Element.label?_operation (m : String) (operands : List String) :
    (operation m operands).label? = none := rfl

/-- What an operation works on. -/
def Element.operands : Element → List String
  | .label _ => []
  | .operation _ operands => operands

/-- The characters of names. -/
def isNameChar (c : Char) : Bool :=
  c.isAlphanum || ['_', '$', '#', '@', '~', '.', '?'].contains c

/-- The operation of a text, unless it is blank. -/
def operationIn (cs : List Char) : List Element :=
  if Text.trim cs = [] then []
  else [.operation (splitInstruction (String.ofList cs)).1 (splitInstruction (String.ofList cs)).2]

/-- What a line says. -/
def elementsOf (line : List Char) : List Element :=
  let code := Text.trim (line.takeWhile (· != ';'))
  let name := code.takeWhile isNameChar
  let rest := Text.trimStart (code.dropWhile isNameChar)
  if name = [] then operationIn code
  else if rest.head? = some ':' then .label (String.ofList name) :: operationIn rest.tail
  else if rest.takeWhile isNameChar = ['e', 'q', 'u'] then
    .label (String.ofList name) :: operationIn rest
  else operationIn code

/-- A line in front of others; a backslash at its end takes the next one in. -/
def joinStep (l : List Char) : List (List Char) → List (List Char)
  | [] => [l]
  | m :: ls => if l.getLast? = some '\\' then (l.dropLast ++ m) :: ls else l :: m :: ls

/-- The lines of a text as the assembler counts them. -/
def linesOf (text : String) : List (List Char) :=
  (text.toList.splitOn '\n').foldr joinStep []

/-- What a text says. -/
def elements (text : String) : List Element :=
  (linesOf text).flatMap elementsOf

/-- The names that a text defines for the whole of it. Those that begin with a dot belong to the name
    before them. -/
def globals (es : List Element) : List String :=
  (es.filterMap Element.label?).filter fun name => name.toList.head? != some '.'

/-- What follows a label. -/
def after (es : List Element) (name : String) : List Element :=
  (es.dropWhile (· ≠ .label name)).tail

theorem linesOf_eq {text : String} {ls : List (List Char)} (h : text.toList.splitOn '\n' = ls)
    (hls : ∀ l ∈ ls, '\\' ∉ l) : linesOf text = ls := by
  rw [linesOf, h]
  clear h
  induction ls with
  | nil => rfl
  | cons l ls ih =>
    rw [List.foldr_cons, ih fun m hm => hls m (List.mem_cons_of_mem l hm)]
    have hl : l.getLast? ≠ some '\\' := fun h =>
      hls l List.mem_cons_self (List.mem_of_getLast? h)
    cases ls with
    | nil => rfl
    | cons m ls => rw [joinStep, if_neg hl]

theorem after_append {es rest : List Element} {name : String} (h : .label name ∉ es) :
    after (es ++ .label name :: rest) name = rest := by
  have hne : ∀ e ∈ es, decide (e ≠ .label name) = true := fun e he =>
    decide_eq_true fun heq => h (heq ▸ he)
  rw [after, List.dropWhile_append_of_pos hne, List.dropWhile_cons_of_neg (by simp), List.tail_cons]

/-! ## Reading lines -/

/-- Blanks at the start of a line say nothing. -/
theorem elementsOf_append {b cs : List Char} (hb : Text.Blank b) :
    elementsOf (b ++ cs) = elementsOf cs := by
  have hcomment : ∀ c ∈ b, (c != ';') = true := by
    intro c hc
    rw [bne_iff_ne]
    rintro rfl
    exact absurd (hb _ hc) (by decide)
  have htrim : Text.trim ((b ++ cs).takeWhile (· != ';')) = Text.trim (cs.takeWhile (· != ';')) := by
    rw [List.takeWhile_append_of_pos hcomment, Text.trim, Text.trimStart_append_of_blank hb,
      ← Text.trim]
  simp only [elementsOf, htrim]

theorem takeWhile_code {cs : List Char} (h : ';' ∉ cs) : cs.takeWhile (· != ';') = cs := by
  have hall : ∀ c ∈ cs, (c != ';') = true := fun c hc => bne_iff_ne.2 fun heq => h (heq ▸ hc)
  exact List.takeWhile_eq_self_iff.2 hall

/-- The name of an operation. -/
structure IsName (m : String) : Prop where
  nonempty : m.toList ≠ []
  name : ∀ c ∈ m.toList, isNameChar c = true

instance (s : String) : Decidable (IsName s) :=
  decidable_of_iff (s.toList ≠ [] ∧ s.toList.all isNameChar = true)
    ⟨fun h => ⟨h.1, List.all_eq_true.1 h.2⟩, fun h => ⟨h.nonempty, List.all_eq_true.2 h.name⟩⟩

/-- Nothing that ends a line or takes the next one in. -/
def Unbroken (cs : List Char) : Prop :=
  '\\' ∉ cs ∧ '\n' ∉ cs

/-- Nothing that ends what is said on a line either. -/
def Uncut (cs : List Char) : Prop :=
  ';' ∉ cs ∧ Unbroken cs

instance (cs : List Char) : Decidable (Unbroken cs) :=
  inferInstanceAs (Decidable (_ ∧ _))

instance (cs : List Char) : Decidable (Uncut cs) :=
  inferInstanceAs (Decidable (_ ∧ _))

theorem Unbroken.append {a b : List Char} (ha : Unbroken a) (hb : Unbroken b) : Unbroken (a ++ b) := by
  simp only [Unbroken, List.mem_append, not_or] at ha hb ⊢
  exact ⟨⟨ha.1, hb.1⟩, ha.2, hb.2⟩

theorem Uncut.append {a b : List Char} (ha : Uncut a) (hb : Uncut b) : Uncut (a ++ b) :=
  ⟨by simp [ha.1, hb.1], ha.2.append hb.2⟩

theorem isNameChar_facts {c : Char} (h : isNameChar c = true) :
    Text.isBlank c = false ∧ c ≠ ';' ∧ c ≠ '\\' ∧ c ≠ '\n' ∧ c ≠ ',' := by
  have hascii : c.toNat < 128 := by
    simp only [isNameChar, Bool.or_eq_true, Char.isAlphanum, Text.isAlpha_iff, Text.isUpper_iff,
      Text.isLower_iff, Text.isDigit_iff, List.contains_eq_mem, decide_eq_true_eq, List.mem_cons,
      List.not_mem_nil, or_false] at h
    rcases h with (h | h) | rfl | rfl | rfl | rfl | rfl | rfl | rfl
    · omega
    · omega
    all_goals decide
  have hall := Text.forall_ascii (p := fun c => !isNameChar c ||
    !Text.isBlank c && c != ';' && c != '\\' && c != '\n' && c != ',') (by decide +kernel) hascii
  simpa [h, and_assoc] using hall

theorem IsName.uncut {m : String} (h : IsName m) : Uncut m.toList :=
  ⟨fun hc => (isNameChar_facts (h.name _ hc)).2.1 rfl,
    fun hc => (isNameChar_facts (h.name _ hc)).2.2.1 rfl,
    fun hc => (isNameChar_facts (h.name _ hc)).2.2.2.1 rfl⟩

theorem IsName.isMnemonic {m : String} (h : IsName m) : IsMnemonic m :=
  ⟨h.nonempty, fun c hc => (isNameChar_facts (h.name c hc)).1⟩

/-- What an operation may work on: it is found again between commas, and no comment or definition
    begins with it. -/
structure IsOperand (a : String) : Prop extends IsArgument a where
  uncut : Uncut a.toList
  colon : a.toList.head? ≠ some ':'
  equ : a.toList.takeWhile isNameChar ≠ ['e', 'q', 'u']

theorem operationIn_joinOperands {m : String} {args : List String} (hm : IsMnemonic m)
    (hargs : ∀ a ∈ args, IsArgument a) :
    operationIn (joinOperands m args).toList = [.operation m args] := by
  have hne : (joinOperands m args).toList ≠ [] := by
    cases args with
    | nil => exact hm.nonempty
    | cons a as => simp [toList_joinOperands_cons]
  unfold operationIn
  rw [Text.trim_eq_self (trimmed_joinOperands hm hargs), if_neg hne, String.ofList_toList,
    splitInstruction_joinOperands hm hargs]

theorem uncut_intercalate {args : List String} (h : ∀ a ∈ args, Uncut a.toList) :
    Uncut (String.intercalate ", " args).toList := by
  have hmem : ∀ c ∈ (String.intercalate ", " args).toList,
      c = ',' ∨ c = ' ' ∨ ∃ a ∈ args, c ∈ a.toList := fun c hc => mem_intercalate hc
  refine ⟨fun hc => ?_, fun hc => ?_, fun hc => ?_⟩
  · obtain h' | h' | ⟨a, ha, hc⟩ := hmem _ hc
    · exact absurd h' (by decide)
    · exact absurd h' (by decide)
    · exact (h a ha).1 hc
  · obtain h' | h' | ⟨a, ha, hc⟩ := hmem _ hc
    · exact absurd h' (by decide)
    · exact absurd h' (by decide)
    · exact (h a ha).2.1 hc
  · obtain h' | h' | ⟨a, ha, hc⟩ := hmem _ hc
    · exact absurd h' (by decide)
    · exact absurd h' (by decide)
    · exact (h a ha).2.2 hc

theorem uncut_joinOperands {m : String} {args : List String} (hm : Uncut m.toList)
    (hargs : ∀ a ∈ args, Uncut a.toList) : Uncut (joinOperands m args).toList := by
  cases args with
  | nil => exact hm
  | cons a as =>
    rw [toList_joinOperands_cons]
    exact (hm.append (by decide)).append (uncut_intercalate hargs)

/-- The first operand decides how the operands begin. -/
theorem takeWhile_intercalate (a : String) (as : List String) :
    (String.intercalate ", " (a :: as)).toList.takeWhile isNameChar =
      a.toList.takeWhile isNameChar := by
  cases as with
  | nil => simp
  | cons b as =>
    have hcomma : isNameChar ',' = false := by decide
    rw [String.intercalate_cons_cons, String.toList_append, String.toList_append,
      List.append_assoc]
    rw [List.takeWhile_append]
    split
    · next hlength =>
      have hbegins : a.toList.takeWhile isNameChar <+: a.toList := List.takeWhile_prefix isNameChar
      simp [hcomma, hbegins.eq_of_length hlength]
    · rfl

/-- A line that begins with no name is an operation. -/
theorem elementsOf_unnamed {m : String} {args : List String} (hm : IsMnemonic m)
    (hname : m.toList.takeWhile isNameChar = []) (huncut : Uncut m.toList)
    (hargs : ∀ a ∈ args, IsArgument a) (hargsUncut : ∀ a ∈ args, Uncut a.toList) :
    elementsOf (joinOperands m args).toList = [.operation m args] := by
  have htake : (joinOperands m args).toList.takeWhile isNameChar = [] := by
    obtain ⟨c, cs, hc⟩ := List.exists_cons_of_ne_nil hm.nonempty
    have hfirst : isNameChar c = false := by
      rw [hc, List.takeWhile_cons] at hname
      split at hname
      · simp at hname
      · next h => simpa using h
    have hlist : ∃ rest, (joinOperands m args).toList = c :: rest := by
      cases args with
      | nil => exact ⟨cs, hc⟩
      | cons a as => exact ⟨_, by rw [toList_joinOperands_cons, hc]; rfl⟩
    obtain ⟨rest, hrest⟩ := hlist
    rw [hrest, List.takeWhile_cons_of_neg (by simp [hfirst])]
  unfold elementsOf
  dsimp only
  rw [takeWhile_code (uncut_joinOperands huncut hargsUncut).1,
    Text.trim_eq_self (trimmed_joinOperands hm hargs), htake, if_pos rfl,
    operationIn_joinOperands hm hargs]

/-- What stands behind a name and a space decides whether the name is defined. -/
theorem elementsOf_spaced {m : String} (hm : IsName m) {rest : List Char}
    (htrimmed : Text.Trimmed rest) (hne : rest ≠ []) (hcomment : ';' ∉ rest) :
    elementsOf (m.toList ++ ' ' :: rest) =
      if rest.head? = some ':' then .label m :: operationIn rest.tail
      else if rest.takeWhile isNameChar = ['e', 'q', 'u'] then .label m :: operationIn rest
      else operationIn (m.toList ++ ' ' :: rest) := by
  have hspace : isNameChar ' ' = false := by decide
  have hcode : Text.trim ((m.toList ++ ' ' :: rest).takeWhile (· != ';')) =
      m.toList ++ ' ' :: rest := by
    have huncut : ';' ∉ m.toList ++ ' ' :: rest := by simp [hm.uncut.1, hcomment]
    have hwhole := hm.isMnemonic.trimmed.append htrimmed hm.nonempty hne [' ']
    rw [List.append_assoc, List.singleton_append] at hwhole
    rw [takeWhile_code huncut, Text.trim_eq_self hwhole]
  have htake : (m.toList ++ ' ' :: rest).takeWhile isNameChar = m.toList := by
    rw [List.takeWhile_append_of_pos hm.name, List.takeWhile_cons_of_neg (by simp [hspace]),
      List.append_nil]
  have hrest : Text.trimStart ((m.toList ++ ' ' :: rest).dropWhile isNameChar) = rest := by
    have hblank : Text.Blank [' '] := by simp [Text.Blank]; decide
    have hstart : Text.trimStart (' ' :: rest) = Text.trimStart rest :=
      Text.trimStart_append_of_blank hblank
    rw [List.dropWhile_append_of_pos hm.name, List.dropWhile_cons_of_neg (by simp [hspace]), hstart,
      Text.trimStart_eq_self htrimmed.head]
  unfold elementsOf
  dsimp only
  rw [hcode, htake, hrest, if_neg hm.nonempty, String.ofList_toList]

/-- A line that defines nothing is an operation. -/
theorem elementsOf_joinOperands {m : String} {args : List String} (hm : IsName m)
    (hargs : ∀ a ∈ args, IsOperand a) :
    elementsOf (joinOperands m args).toList = [.operation m args] := by
  have hargs' : ∀ a ∈ args, IsArgument a := fun a ha => (hargs a ha).toIsArgument
  have hoperation := operationIn_joinOperands hm.isMnemonic hargs'
  cases args with
  | nil =>
    rw [joinOperands] at hoperation ⊢
    unfold elementsOf
    dsimp only
    rw [takeWhile_code hm.uncut.1, Text.trim_eq_self hm.isMnemonic.trimmed,
      List.takeWhile_eq_self_iff.2 hm.name, List.dropWhile_eq_nil_iff.2 hm.name, if_neg hm.nonempty,
      if_neg (by simp [Text.trimStart]), if_neg (by simp [Text.trimStart]), hoperation]
  | cons a as =>
    have ha := hargs a List.mem_cons_self
    have hlist : (joinOperands m (a :: as)).toList =
        m.toList ++ ' ' :: (String.intercalate ", " (a :: as)).toList := by
      rw [toList_joinOperands_cons, List.append_assoc, List.singleton_append]
    have hhead : (String.intercalate ", " (a :: as)).toList.head? = a.toList.head? := by
      obtain ⟨c, cs, hc⟩ := List.exists_cons_of_ne_nil ha.nonempty
      cases as with
      | nil => simp
      | cons b as => simp [hc]
    rw [hlist] at hoperation ⊢
    rw [elementsOf_spaced hm (trimmed_intercalate hargs') (intercalate_ne_nil ha.toIsArgument)
      (uncut_intercalate fun b hb => (hargs b hb).uncut).1, hhead, if_neg ha.colon,
      takeWhile_intercalate, if_neg ha.equ, hoperation]

/-- A name that stands for a number. -/
theorem elementsOf_equ {name value : String} (hname : IsName name) (hvalue : IsOperand value) :
    elementsOf (joinOperands name [joinOperands "equ" [value]]).toList =
      [.label name, .operation "equ" [value]] := by
  have hequ : IsMnemonic "equ" := IsName.isMnemonic (by decide)
  have hargs : ∀ a ∈ [value], IsArgument a := by simpa using hvalue.toIsArgument
  have hlist : (joinOperands name [joinOperands "equ" [value]]).toList =
      name.toList ++ ' ' :: (joinOperands "equ" [value]).toList := by
    simp [toList_joinOperands_cons]
  have hdefines : (joinOperands "equ" [value]).toList = ['e', 'q', 'u'] ++ ' ' :: value.toList := by
    simp [toList_joinOperands_cons]
  have htake : (joinOperands "equ" [value]).toList.takeWhile isNameChar = ['e', 'q', 'u'] := by
    have hspace : isNameChar ' ' = false := by decide
    have hword : ∀ c ∈ ['e', 'q', 'u'], isNameChar c = true := List.all_eq_true.1 (by decide)
    rw [hdefines, List.takeWhile_append_of_pos hword, List.takeWhile_cons_of_neg (by simp [hspace]),
      List.append_nil]
  rw [hlist, elementsOf_spaced hname (trimmed_joinOperands hequ hargs) (by simp [hdefines])
    (uncut_joinOperands (by decide) (by simpa using hvalue.uncut)).1, if_neg (by simp [hdefines]),
    htake, if_pos rfl, operationIn_joinOperands hequ hargs]

/-- A line with a colon behind a name defines it; a comment may follow. -/
theorem elementsOf_label {name : String} (hname : IsName name) {rest : List Char}
    (hrest : rest = [] ∨ ∃ comment, rest = ' ' :: ';' :: comment) :
    elementsOf (name.toList ++ ':' :: rest) = [.label name] := by
  have hcolon : isNameChar ':' = false := by decide
  have hall : ∀ c ∈ name.toList, (c != ';') = true := fun c hc =>
    bne_iff_ne.2 fun heq => hname.uncut.1 (heq ▸ hc)
  have htrimmed : Text.Trimmed (name.toList ++ [] ++ [':']) :=
    hname.isMnemonic.trimmed.append (by decide) hname.nonempty (by simp) []
  have hcode : Text.trim ((name.toList ++ ':' :: rest).takeWhile (· != ';')) =
      name.toList ++ [':'] := by
    rw [List.append_nil] at htrimmed
    rw [List.takeWhile_append_of_pos hall]
    rcases hrest with rfl | ⟨comment, rfl⟩
    · exact Text.trim_eq_self htrimmed
    · have h := Text.trim_append_append (a := []) (b := [' ']) (by simp [Text.Blank])
        (by simp [Text.Blank]; decide) htrimmed
      simpa using h
  unfold elementsOf
  dsimp only
  rw [hcode, List.takeWhile_append_of_pos hname.name, List.takeWhile_cons_of_neg (by simp [hcolon]),
    List.append_nil, if_neg hname.nonempty, List.dropWhile_append_of_pos hname.name,
    List.dropWhile_cons_of_neg (by simp [hcolon]),
    Text.trimStart_eq_self (by simp; decide), List.head?_cons, if_pos rfl, String.ofList_toList]
  rfl

end Assembly

end MacroAsm
