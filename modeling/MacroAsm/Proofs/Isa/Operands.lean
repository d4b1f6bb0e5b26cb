import MacroAsm.Isa.Operand
import MacroAsm.Proofs.Isa.Numerals
import MacroAsm.Proofs.Text.LowerCase
import MacroAsm.Proofs.Text.Trimming

set_option autoImplicit false

/-! # Written operands

An operand that was read is written in a form that is read as the same operand
(`Operand.parse_written`). What was read carries what the proof needs: names are identifiers and
numbers are in the range of numerals (`Operand.Readable`). -/

namespace MacroAsm

/-! ## Characters -/

theorem toNat_lt_of_isIdentRest {c : Char} (h : isIdentRest c = true) : c.toNat < 128 := by
  simp only [isIdentRest, Char.isAlphanum, Bool.or_eq_true, beq_iff_eq, Text.isAlpha_iff,
    Text.isUpper_iff, Text.isLower_iff, Text.isDigit_iff] at h
  rcases h with ((h | h) | rfl) | rfl
  · omega
  · omega
  · decide
  · decide

theorem isIdentRest_of_isIdentStart {c : Char} (h : isIdentStart c = true) :
    isIdentRest c = true := by
  simp only [isIdentStart, isIdentRest, Char.isAlphanum, Bool.or_eq_true] at h ⊢
  rcases h with h | h
  · exact .inl (.inl (.inl h))
  · exact .inl (.inr h)

/-- The characters that operands are written with unless they are quoted. -/
def isOperandChar (c : Char) : Bool :=
  isIdentRest c || c == '&' || c == '*' || c == '$' || c == '-'

theorem toNat_lt_of_isOperandChar {c : Char} (h : isOperandChar c = true) : c.toNat < 128 := by
  simp only [isOperandChar, Bool.or_eq_true, beq_iff_eq] at h
  rcases h with (((h | rfl) | rfl) | rfl) | rfl
  · exact toNat_lt_of_isIdentRest h
  · decide
  · decide
  · decide
  · decide

/-- Nothing that stands around or between operands can stand in one. -/
theorem not_special_of_isOperandChar {c : Char} (h : isOperandChar c = true) :
    Text.isBlank c = false ∧ c ≠ ',' ∧ c ≠ ':' ∧ c ≠ '/' ∧ c ≠ '#' := by
  have hall := Text.forall_ascii (p := fun c => !isOperandChar c ||
    !Text.isBlank c && c != ',' && c != ':' && c != '/' && c != '#') (by decide)
    (toNat_lt_of_isOperandChar h)
  simpa [h, and_assoc] using hall

/-- A name begins with a character that begins nothing else. -/
theorem not_special_of_isIdentStart {c : Char} (h : isIdentStart c = true) :
    c.isDigit = false ∧ c ≠ '-' ∧ c ≠ '&' ∧ c ≠ '*' ∧ c ≠ '$' ∧ c ≠ '"' := by
  have hall := Text.forall_ascii (p := fun c => !isIdentStart c ||
    !c.isDigit && c != '-' && c != '&' && c != '*' && c != '$' && c != '"') (by decide)
    (toNat_lt_of_isIdentRest (isIdentRest_of_isIdentStart h))
  simpa [h, and_assoc] using hall

theorem isIdentRest_of_isDigit {c : Char} (h : c.isDigit = true) : isIdentRest c = true := by
  simp [isIdentRest, Char.isAlphanum, h]

/-- The shapes of identifiers hold ASCII characters only. -/
theorem toNat_lt_of_has_identRest {c : Char} (h : OperandKind.identRest.has c = true) :
    c.toNat < 128 := by
  have hle (a b : Char) : (a ≤ b) = (a.toNat ≤ b.toNat) := rfl
  simp only [OperandKind.identRest, Text.CharSet.has, List.any_cons, List.any_nil, hle, bne_iff_ne,
    ne_eq, Bool.not_eq_false, Bool.or_eq_true, Bool.and_eq_true, decide_eq_true_eq,
    Bool.or_false] at h
  simp only [Char.reduceToNat] at h
  omega

theorem toNat_lt_of_has_identStart {c : Char} (h : OperandKind.identStart.has c = true) :
    c.toNat < 128 := by
  have hle (a b : Char) : (a ≤ b) = (a.toNat ≤ b.toNat) := rfl
  simp only [OperandKind.identStart, Text.CharSet.has, List.any_cons, List.any_nil, hle, bne_iff_ne,
    ne_eq, Bool.not_eq_false, Bool.or_eq_true, Bool.and_eq_true, decide_eq_true_eq,
    Bool.or_false] at h
  simp only [Char.reduceToNat] at h
  omega

/-- These shapes leave out capital letters. -/
theorem has_identRest {c : Char} (h : c.isUpper = false) :
    OperandKind.identRest.has c = isIdentRest c := by
  by_cases hc : c.toNat < 128
  · have hall := Text.forall_ascii (p := fun c => c.isUpper ||
      OperandKind.identRest.has c == isIdentRest c) (by decide) hc
    simpa [h] using hall
  · have hhas : OperandKind.identRest.has c = false :=
      Bool.eq_false_iff.2 (mt toNat_lt_of_has_identRest hc)
    have hrest : isIdentRest c = false := Bool.eq_false_iff.2 (mt toNat_lt_of_isIdentRest hc)
    rw [hhas, hrest]

theorem has_identStart {c : Char} (h : c.isUpper = false) :
    OperandKind.identStart.has c = isIdentStart c := by
  by_cases hc : c.toNat < 128
  · have hall := Text.forall_ascii (p := fun c => c.isUpper ||
      OperandKind.identStart.has c == isIdentStart c) (by decide) hc
    simpa [h] using hall
  · have hhas : OperandKind.identStart.has c = false :=
      Bool.eq_false_iff.2 (mt toNat_lt_of_has_identStart hc)
    have hstart : isIdentStart c = false :=
      Bool.eq_false_iff.2 fun hs =>
        hc (toNat_lt_of_isIdentRest (isIdentRest_of_isIdentStart hs))
    rw [hhas, hstart]

theorem isIdentChars_cons {c : Char} {cs : List Char} :
    isIdentChars (c :: cs) = true ↔ isIdentStart c = true ∧ ∀ d ∈ cs, isIdentRest d = true := by
  simp [isIdentChars]

theorem isIdentRest_of_mem {c : Char} {cs : List Char} (h : isIdentChars cs = true) (hc : c ∈ cs) :
    isIdentRest c = true := by
  cases cs with
  | nil => simp at hc
  | cons d cs =>
    obtain ⟨hd, hcs⟩ := isIdentChars_cons.1 h
    rcases List.mem_cons.1 hc with rfl | hc
    · exact isIdentRest_of_isIdentStart hd
    · exact hcs c hc

/-! ## Registers -/

theorem Register.toList_written (r : Register) :
    r.written.toList = '&' :: 'r' :: Nat.toDigits 10 r.index.val := by
  simp [Register.written, toString]

theorem Register.parse_written (r : Register) : Register.parse r.written = .ok r := by
  have hdigits : ∀ c ∈ Nat.toDigits 10 r.index.val, c.isDigit = true :=
    fun c hc => Numeral.isDigit_of_mem_toDigits hc
  have hread : Numeral.readDigits 255 .decimal (Nat.toDigits 10 r.index.val) = .ok r.index.val :=
    Numeral.readDigits_toDigits (by omega)
  unfold Register.parse
  rw [Register.toList_written]
  cases hcs : Nat.toDigits 10 r.index.val with
  | nil => exact absurd hcs Nat.toDigits_ne_nil
  | cons d ds =>
    rw [hcs] at hdigits hread
    simp only [if_pos (List.all_eq_true.2 hdigits)]
    split
    · next n hn =>
      rw [hread] at hn
      obtain rfl := Except.ok.inj hn
      rfl
    · next e he =>
      rw [hread] at he
      simp at he

/-- A text that names a register is `&r` and digits. -/
theorem Register.exists_of_parse {s : String} {r : Register} (h : parse s = .ok r) :
    ∃ ds, s.toList = '&' :: 'r' :: ds ∧ ∀ d ∈ ds, d.isDigit = true := by
  unfold parse at h
  split at h
  · next d ds heq =>
    split at h
    · next hdigits => exact ⟨d :: ds, heq, List.all_eq_true.1 hdigits⟩
    · simp at h
  · simp at h

namespace Operand

/-! ## Operands that can be read -/

/-- What a text can be read as. -/
def Readable : Operand → Prop
  | .register _ | .pointer _ | .quoted _ => True
  | .variable name | .label name => isIdent name = true
  | .address n | .number n => Numeral.InRange n

/-- What an operand is read off, by its kind. -/
inductive ReadOff : List Char → Operand → Prop
  | pointer {cs : List Char} {r : Register} (h : Register.parse (String.ofList ('&' :: cs)) = .ok r) :
      ReadOff ('*' :: '&' :: cs) (.pointer r)
  | variable {name : List Char} (h : isIdentChars name = true) :
      ReadOff ('*' :: name) (.variable (String.ofList name))
  | register {cs : List Char} {r : Register} (h : Register.parse (String.ofList ('&' :: cs)) = .ok r) :
      ReadOff ('&' :: cs) (.register r)
  | address {cs : List Char} {n : Int} (h : Numeral.ofChars cs = .ok n) :
      ReadOff ('$' :: cs) (.address n)
  | quoted {cs inner : List Char} (h : unquote? cs = some inner) :
      ReadOff cs (.quoted (String.ofList inner))
  | number {cs : List Char} {n : Int} (h : Numeral.ofChars cs = .ok n) : ReadOff cs (.number n)
  | label {name : List Char} (h : isIdentChars name = true) :
      ReadOff name (.label (String.ofList name))

theorem readOff_of_ofChars {cs : List Char} {x : Operand} (h : ofChars cs = .ok x) :
    ReadOff cs x := by
  unfold ofChars at h
  split at h
  · split at h
    · next hr => exact Except.ok.inj h ▸ .pointer hr
    · simp at h
  · split at h
    · next hname => exact Except.ok.inj h ▸ .variable hname
    · simp at h
  · split at h
    · next hr => exact Except.ok.inj h ▸ .register hr
    · simp at h
  · split at h
    · next hn => exact Except.ok.inj h ▸ .address hn
    · simp at h
  · split at h
    · next hinner => exact Except.ok.inj h ▸ .quoted hinner
    · split at h
      · next hn => exact Except.ok.inj h ▸ .number hn
      · split at h
        · next hname => exact Except.ok.inj h ▸ .label hname
        · simp at h

theorem readable_of_ofChars {cs : List Char} {x : Operand} (h : ofChars cs = .ok x) :
    x.Readable := by
  cases readOff_of_ofChars h with
  | pointer | register | quoted => trivial
  | «variable» hname | label hname => simpa [Readable, isIdent] using hname
  | address hn | number hn => exact Numeral.inRange_of_ofChars hn

/-- What was read can be read. -/
theorem readable_of_parse {s : String} {x : Operand} (h : parse s = .ok x) : x.Readable :=
  readable_of_ofChars h

/-! ## Marks -/

theorem toList_written_pointer (r : Register) :
    (written (.pointer r)).toList = '*' :: r.written.toList := by
  simp [written, toString]

theorem toList_written_variable (name : String) :
    (written (.variable name)).toList = '*' :: name.toList := by
  simp [written, toString]

theorem toList_written_address (n : Int) :
    (written (.address n)).toList = '$' :: (toString n).toList := by
  simp [written, toString]

theorem toList_written_quoted (s : String) :
    (written (.quoted s)).toList = '"' :: (s.toList ++ ['"']) := by
  simp [written, toString]

/-! ## Reading what is written -/

theorem ofChars_register (r : Register) : ofChars r.written.toList = .ok (.register r) := by
  have hparse := Register.parse_written r
  rw [← String.ofList_toList (s := r.written)] at hparse
  rw [Register.toList_written] at hparse ⊢
  simp only [ofChars, hparse]

theorem ofChars_pointer (r : Register) : ofChars ('*' :: r.written.toList) = .ok (.pointer r) := by
  have hparse := Register.parse_written r
  rw [← String.ofList_toList (s := r.written)] at hparse
  rw [Register.toList_written] at hparse ⊢
  simp only [ofChars, hparse]

theorem ofChars_variable {cs : List Char} (h : isIdentChars cs = true) :
    ofChars ('*' :: cs) = .ok (.variable (String.ofList cs)) := by
  have hamp : ∀ rest, cs = '&' :: rest → False := by
    rintro rest rfl
    exact absurd (isIdentChars_cons.1 h).1 (by decide)
  rw [ofChars.eq_2 cs hamp, if_pos h]

theorem ofChars_address {n : Int} (h : Numeral.InRange n) :
    ofChars ('$' :: (toString n).toList) = .ok (.address n) := by
  rw [ofChars.eq_4, Numeral.ofChars_toString h]

/-- A text that begins with none of the marks is quoted, a number or a label. -/
theorem ofChars_of_unmarked {c : Char} {cs : List Char} (hstar : c ≠ '*') (hamp : c ≠ '&')
    (hdollar : c ≠ '$') :
    ofChars (c :: cs) =
      match unquote? (c :: cs) with
      | some inner => .ok (.quoted (String.ofList inner))
      | none =>
        match Numeral.ofChars (c :: cs) with
        | .ok n => .ok (.number n)
        | .error _ =>
          if isIdentChars (c :: cs) then .ok (.label (String.ofList (c :: cs)))
          else .error (.unreadable (String.ofList (c :: cs))) := by
  apply ofChars.eq_5
  · intro rest h
    exact hstar (List.head_eq_of_cons_eq h)
  · intro rest h
    exact hstar (List.head_eq_of_cons_eq h)
  · intro rest h
    exact hamp (List.head_eq_of_cons_eq h)
  · intro rest h
    exact hdollar (List.head_eq_of_cons_eq h)

theorem unquote?_of_ne {c : Char} {cs : List Char} (h : c ≠ '"') : unquote? (c :: cs) = none := by
  apply unquote?.eq_2
  intro rest heq
  exact h (List.head_eq_of_cons_eq heq)

/-- A written number begins with a minus or a digit. -/
theorem exists_toList_toString (n : Int) :
    ∃ c cs, (toString n).toList = c :: cs ∧ (c = '-' ∨ c.isDigit = true) ∧
      ∀ d ∈ cs, d.isDigit = true := by
  cases n with
  | ofNat m =>
    have htext : (toString (Int.ofNat m)).toList = Nat.toDigits 10 m := Nat.toList_repr
    cases hcs : Nat.toDigits 10 m with
    | nil => exact absurd hcs Nat.toDigits_ne_nil
    | cons c cs =>
      have hdigits : ∀ d ∈ c :: cs, d.isDigit = true := by
        intro d hd
        rw [← hcs] at hd
        exact Numeral.isDigit_of_mem_toDigits hd
      exact ⟨c, cs, htext.trans hcs, .inr (hdigits c List.mem_cons_self),
        fun d hd => hdigits d (List.mem_cons_of_mem c hd)⟩
  | negSucc m =>
    refine ⟨'-', Nat.toDigits 10 (m + 1), ?_, .inl rfl,
      fun d hd => Numeral.isDigit_of_mem_toDigits hd⟩
    show ("-" ++ (m + 1).repr).toList = _
    rw [String.toList_append, Nat.toList_repr]
    rfl

/-- None of the marks is a minus or a digit. -/
theorem ne_of_isDigit_or_minus {c : Char} (h : c.isDigit = true ∨ c = '-') :
    ∀ d : Char, d ≠ '-' → d.isDigit = false → c ≠ d := by
  rintro d hd hdigit rfl
  rcases h with h | h
  · exact absurd (hdigit.symm.trans h) Bool.false_ne_true
  · exact hd h

theorem ofChars_number {n : Int} (h : Numeral.InRange n) :
    ofChars (toString n).toList = .ok (.number n) := by
  have hread := Numeral.ofChars_toString h
  obtain ⟨c, cs, htext, hc, -⟩ := exists_toList_toString n
  rw [htext] at hread ⊢
  have hne := ne_of_isDigit_or_minus hc.symm
  rw [ofChars_of_unmarked (hne _ (by decide) (by decide)) (hne _ (by decide) (by decide))
    (hne _ (by decide) (by decide)), unquote?_of_ne (hne _ (by decide) (by decide)), hread]

theorem ofChars_label {cs : List Char} (h : isIdentChars cs = true) :
    ofChars cs = .ok (.label (String.ofList cs)) := by
  cases cs with
  | nil => simp [isIdentChars] at h
  | cons c cs =>
    obtain ⟨hdigit, hminus, hamp, hstar, hdollar, hquote⟩ :=
      not_special_of_isIdentStart (isIdentChars_cons.1 h).1
    obtain ⟨e, he⟩ := Numeral.exists_error_of_head cs hdigit hminus
    rw [ofChars_of_unmarked hstar hamp hdollar, unquote?_of_ne hquote, he]
    simp only [if_pos h]

theorem ofChars_quoted (cs : List Char) :
    ofChars ('"' :: (cs ++ ['"'])) = .ok (.quoted (String.ofList cs)) := by
  rw [ofChars_of_unmarked (by decide) (by decide) (by decide)]
  simp [unquote?]

/-- A readable operand is read as it is written. -/
theorem ofChars_written {x : Operand} (h : x.Readable) : ofChars x.written.toList = .ok x := by
  cases x with
  | register r => exact ofChars_register r
  | pointer r =>
    rw [toList_written_pointer]
    exact ofChars_pointer r
  | «variable» name =>
    rw [toList_written_variable, ofChars_variable h, String.ofList_toList]
  | address n =>
    rw [toList_written_address]
    exact ofChars_address h
  | number n => exact ofChars_number h
  | label name => rw [written, ofChars_label h, String.ofList_toList]
  | quoted s => rw [toList_written_quoted, ofChars_quoted, String.ofList_toList]

/-! ## The characters of what is written -/

theorem isOperandChar_of_isIdentRest {c : Char} (h : isIdentRest c = true) :
    isOperandChar c = true := by
  simp [isOperandChar, h]

theorem isOperandChar_of_isDigit {c : Char} (h : c.isDigit = true) : isOperandChar c = true :=
  isOperandChar_of_isIdentRest (isIdentRest_of_isDigit h)

theorem isOperandChar_of_mem_toString {n : Int} {c : Char} (hc : c ∈ (toString n).toList) :
    isOperandChar c = true := by
  obtain ⟨d, ds, htext, hd, hds⟩ := exists_toList_toString n
  rw [htext] at hc
  rcases List.mem_cons.1 hc with rfl | hc
  · rcases hd with rfl | hd
    · decide
    · exact isOperandChar_of_isDigit hd
  · exact isOperandChar_of_isDigit (hds c hc)

theorem isOperandChar_of_mem_register {r : Register} {c : Char} (hc : c ∈ r.written.toList) :
    isOperandChar c = true := by
  rw [Register.toList_written] at hc
  rcases List.mem_cons.1 hc with rfl | hc
  · decide
  · rcases List.mem_cons.1 hc with rfl | hc
    · decide
    · exact isOperandChar_of_isDigit (Numeral.isDigit_of_mem_toDigits hc)

theorem isOperandChar_of_mem_written {x : Operand} (h : x.Readable) (hq : x.kind ≠ .quoted)
    {c : Char} (hc : c ∈ x.written.toList) : isOperandChar c = true := by
  cases x with
  | register r => exact isOperandChar_of_mem_register hc
  | pointer r =>
    rw [toList_written_pointer] at hc
    rcases List.mem_cons.1 hc with rfl | hc
    · decide
    · exact isOperandChar_of_mem_register hc
  | «variable» name =>
    rw [toList_written_variable] at hc
    rcases List.mem_cons.1 hc with rfl | hc
    · decide
    · exact isOperandChar_of_isIdentRest (isIdentRest_of_mem h hc)
  | address n =>
    rw [toList_written_address] at hc
    rcases List.mem_cons.1 hc with rfl | hc
    · decide
    · exact isOperandChar_of_mem_toString hc
  | number n => exact isOperandChar_of_mem_toString hc
  | label name => exact isOperandChar_of_isIdentRest (isIdentRest_of_mem h hc)
  | quoted s => exact absurd rfl hq

/-- Nothing is read from the empty text. -/
theorem ofChars_nil : ofChars [] = .error (.unreadable "") := rfl

theorem written_ne_nil {x : Operand} (h : x.Readable) : x.written.toList ≠ [] := by
  intro hnil
  have hread := ofChars_written h
  rw [hnil, ofChars_nil] at hread
  simp at hread

theorem trimmed_written {x : Operand} (h : x.Readable) : Text.Trimmed x.written.toList := by
  by_cases hq : x.kind = .quoted
  · cases x with
    | quoted s =>
      rw [toList_written_quoted]
      refine ⟨fun c hc => ?_, fun c hc => ?_⟩
      · obtain rfl := Option.some.inj hc
        decide
      · rw [← List.cons_append, List.getLast?_concat] at hc
        obtain rfl := Option.some.inj hc
        decide
    | _ => simp [kind] at hq
  · refine Text.trimmed_of_forall fun c hc => ?_
    exact (not_special_of_isOperandChar (isOperandChar_of_mem_written h hq hc)).1

/-- An operand that was read is read again from what it is written as. -/
theorem parse_written {x : Operand} (h : x.Readable) : parse x.written = .ok x := by
  rw [parse, Text.trim_eq_self (trimmed_written h)]
  exact ofChars_written h

/-! ## Case -/

theorem lowered_register (r : Register) : Text.Lowered r.written.toList := by
  rw [Register.toList_written]
  refine .cons (by decide) (.cons (by decide) fun c hc => ?_)
  exact Text.isUpper_of_isDigit (Numeral.isDigit_of_mem_toDigits hc)

theorem lowered_toString (n : Int) : Text.Lowered (toString n).toList := by
  obtain ⟨d, ds, htext, hd, hds⟩ := exists_toList_toString n
  rw [htext]
  refine .cons ?_ fun c hc => Text.isUpper_of_isDigit (hds c hc)
  rcases hd with rfl | hd
  · decide
  · exact Text.isUpper_of_isDigit hd

/-- An operand is written in lower case if it was read in lower case. -/
theorem lowered_written_of_ofChars {cs : List Char} {x : Operand} (hcs : Text.Lowered cs)
    (h : ofChars cs = .ok x) (hq : x.kind ≠ .quoted) : Text.Lowered x.written.toList := by
  cases readOff_of_ofChars h with
  | @pointer _ r =>
    rw [toList_written_pointer]
    exact .cons (by decide) (lowered_register r)
  | «variable» =>
    rw [toList_written_variable, String.toList_ofList]
    exact hcs
  | @register _ r => exact lowered_register r
  | @address _ n =>
    rw [toList_written_address]
    exact .cons (by decide) (lowered_toString n)
  | quoted => exact absurd rfl hq
  | @number _ n => exact lowered_toString n
  | label =>
    rw [written, String.toList_ofList]
    exact hcs

theorem lowered_written {a : String} {x : Operand} (ha : Text.Lowered a.toList)
    (h : parse a = .ok x) (hq : x.kind ≠ .quoted) : Text.Lowered x.written.toList :=
  lowered_written_of_ofChars (fun c hc => ha c (Text.mem_of_mem_trim _ hc)) h hq

end Operand

end MacroAsm
