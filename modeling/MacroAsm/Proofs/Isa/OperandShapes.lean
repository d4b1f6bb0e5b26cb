import MacroAsm.Proofs.Isa.Magnitudes
import MacroAsm.Proofs.Isa.Operands

set_option autoImplicit false

/-! # Shapes of operands

Operands are described twice: by the shapes that macro uses are matched with, and by the reader of
instructions. Both go by the same spelling of each kind (`OperandKind.Spells`); the shapes overlook a
little of it, and the reader leaves out the numbers that are too large. So in lower case a shape
accepts the operands of its kind, with these differences and no others
(`OperandKind.accepts_iff_reads`). -/

namespace MacroAsm

open Text (Shape)

/-! ## Spellings -/

/-- Whether characters are the index of a register, however large: decimal digits. -/
structure IsIndex (ds : List Char) : Prop where
  nonempty : ds ≠ []
  digits : ∀ d ∈ ds, d.isDigit = true

/-- The number of an index. -/
def indexValue (ds : List Char) : Nat :=
  Radix.decimal.valueOnto 0 ds

namespace OperandKind

/-- Whether a text is spelled as an operand of a kind, whatever the number in it. -/
def Spells : OperandKind → List Char → Prop
  | .label, cs => isIdentChars cs = true
  | .variable, cs => ∃ name, cs = '*' :: name ∧ isIdentChars name = true
  | .address, cs => ∃ rest n, cs = '$' :: rest ∧ Numeral.Writes rest n
  | .number, cs => ∃ n, Numeral.Writes cs n
  | .register, cs => ∃ ds, cs = '&' :: 'r' :: ds ∧ IsIndex ds
  | .pointer, cs => ∃ ds, cs = '*' :: '&' :: 'r' :: ds ∧ IsIndex ds
  | .quoted, cs => ∃ inner, cs = '"' :: (inner ++ ['"'])

/-- Whether a text holds a number that is too large for an operand of its kind: more than 31 bits of
    a numeral, or the index of a register above 255. -/
def Exceeds : OperandKind → List Char → Prop
  | .address, cs => ∃ rest n, cs = '$' :: rest ∧ Numeral.Writes rest n ∧ ¬ Numeral.InRange n
  | .number, cs => ∃ n, Numeral.Writes cs n ∧ ¬ Numeral.InRange n
  | .register, cs => ∃ ds, cs = '&' :: 'r' :: ds ∧ IsIndex ds ∧ 255 < indexValue ds
  | .pointer, cs => ∃ ds, cs = '*' :: '&' :: 'r' :: ds ∧ IsIndex ds ∧ 255 < indexValue ds
  | .label, _ | .variable, _ | .quoted, _ => False

/-- Whether the shape of a kind leaves out a text of that kind: a negative address, or a quote
    between those at the ends. -/
def Overlooks : OperandKind → List Char → Prop
  | .address, cs => ∃ rest, cs = '$' :: '-' :: rest
  | .quoted, cs => ∃ inner, cs = '"' :: (inner ++ ['"']) ∧ '"' ∈ inner
  | .label, _ | .variable, _ | .number, _ | .register, _ | .pointer, _ => False

/-- Whether a text is read as an operand of a kind. -/
def Reads (k : OperandKind) (s : String) : Prop :=
  ∃ x, Operand.parse s = .ok x ∧ x.kind = k

/-! ## Kinds by their marks -/

/-- The kind that the first characters of a text allow. -/
def ofMark : List Char → OperandKind
  | '*' :: '&' :: _ => .pointer
  | '*' :: _ => .variable
  | '&' :: _ => .register
  | '$' :: _ => .address
  | '"' :: _ => .quoted
  | c :: _ => if c.isDigit || c == '-' then .number else .label
  | [] => .label

theorem ofMark_of_unmarked {c : Char} (cs : List Char) (hstar : c ≠ '*') (hamp : c ≠ '&')
    (hdollar : c ≠ '$') (hquote : c ≠ '"') :
    ofMark (c :: cs) = if c.isDigit || c == '-' then .number else .label := by
  apply ofMark.eq_6
  · exact fun _ h _ => hstar h
  · exact hstar
  · exact hamp
  · exact hdollar
  · exact hquote

theorem ofMark_of_isIdentStart {c : Char} (cs : List Char) (h : isIdentStart c = true) :
    ofMark (c :: cs) = .label := by
  obtain ⟨hdigit, hminus, hamp, hstar, hdollar, hquote⟩ := not_special_of_isIdentStart h
  rw [ofMark_of_unmarked cs hstar hamp hdollar hquote]
  simp [hdigit, hminus]

theorem ofMark_of_head {c : Char} (cs : List Char) (h : c.isDigit = true ∨ c = '-') :
    ofMark (c :: cs) = .number := by
  have hne := Operand.ne_of_isDigit_or_minus h
  rw [ofMark_of_unmarked cs (hne _ (by decide) (by decide)) (hne _ (by decide) (by decide))
    (hne _ (by decide) (by decide)) (hne _ (by decide) (by decide)), if_pos (by simpa using h)]

/-- A text is spelled as one kind at most. -/
theorem Spells.ofMark_eq {k : OperandKind} {cs : List Char} (h : k.Spells cs) : ofMark cs = k := by
  cases k with
  | label =>
    cases cs with
    | nil => rfl
    | cons c cs => exact ofMark_of_isIdentStart cs (isIdentChars_cons.1 h).1
  | «variable» =>
    obtain ⟨name, rfl, hname⟩ := h
    cases name with
    | nil => rfl
    | cons c name =>
      obtain ⟨-, -, hamp, -⟩ := not_special_of_isIdentStart (isIdentChars_cons.1 hname).1
      exact ofMark.eq_2 (c :: name) fun _ h => hamp (List.head_eq_of_cons_eq h)
  | address =>
    obtain ⟨rest, n, rfl, -⟩ := h
    rfl
  | number =>
    obtain ⟨n, hn⟩ := h
    cases cs with
    | nil => exact absurd hn (Numeral.not_writes_nil n)
    | cons c cs => exact ofMark_of_head cs hn.head
  | register =>
    obtain ⟨ds, rfl, -⟩ := h
    rfl
  | pointer =>
    obtain ⟨ds, rfl, -⟩ := h
    rfl
  | quoted =>
    obtain ⟨inner, rfl⟩ := h
    rfl

end OperandKind

/-! ## What shapes accept -/

namespace OperandKind

theorem takes_identShape_iff {cs : List Char} (hcs : Text.Lowered cs) :
    identShape.Takes cs ↔ isIdentChars cs = true := by
  cases cs with
  | nil =>
    simp only [isIdentChars, Bool.false_eq_true, iff_false]
    rintro ⟨u, v, huv, ⟨c, -, rfl⟩, -⟩
    exact List.cons_ne_nil _ _ huv.symm
  | cons c cs =>
    have hc : c.isUpper = false := hcs c List.mem_cons_self
    have hrest : ∀ d ∈ cs, d.isUpper = false := fun d hd => hcs d (List.mem_cons_of_mem c hd)
    rw [isIdentChars_cons, ← has_identStart hc]
    constructor
    · rintro ⟨u, v, huv, ⟨d, hd, rfl⟩, hv⟩
      obtain ⟨rfl, rfl⟩ := List.cons_eq_cons.1 huv
      exact ⟨hd, fun e he => has_identRest (hrest e he) ▸ hv e he⟩
    · rintro ⟨hstart, hv⟩
      exact ⟨[c], cs, rfl, ⟨c, hstart, rfl⟩, fun e he => (has_identRest (hrest e he)).trans (hv e he)⟩

theorem has_digits (c : Char) : digits.has c = c.isDigit := by
  have hle (a b : Char) : (a ≤ b) = (a.toNat ≤ b.toNat) := rfl
  rw [Bool.eq_iff_iff, Text.isDigit_iff]
  simp [digits, Text.CharSet.has, hle]

theorem takes_digits_iff {ds : List Char} : (Shape.some digits).Takes ds ↔ IsIndex ds := by
  constructor
  · rintro ⟨hne, hdigits⟩
    exact ⟨hne, fun d hd => has_digits d ▸ hdigits d hd⟩
  · rintro ⟨hne, hdigits⟩
    exact ⟨hne, fun d hd => (has_digits d).trans (hdigits d hd)⟩

/-- A shape behind a mark. -/
theorem takes_text_seq_iff {t cs : List Char} {a : Shape} :
    (Shape.seq (.text t) a).Takes cs ↔ ∃ rest, cs = t ++ rest ∧ a.Takes rest := by
  constructor
  · rintro ⟨u, v, rfl, rfl, hv⟩
    exact ⟨v, rfl, hv⟩
  · rintro ⟨rest, rfl, hrest⟩
    exact ⟨t, rest, rfl, rfl, hrest⟩

/-- In lower case the shape of numbers takes all that write one. -/
theorem takes_signed_iff {cs : List Char} (hcs : Text.Lowered cs) :
    (Shape.seq (.maybe '-') magnitudeShape).Takes cs ↔ ∃ n, Numeral.Writes cs n := by
  constructor
  · rintro ⟨u, v, rfl, rfl | rfl, hv⟩
    · obtain ⟨n, hn⟩ := (Numeral.takes_magnitudeShape_iff hcs).1 hv
      exact ⟨n, .inl ⟨n, hn, rfl⟩⟩
    · have hlow : Text.Lowered v := fun d hd => hcs d (List.mem_append_right _ hd)
      obtain ⟨n, hn⟩ := (Numeral.takes_magnitudeShape_iff hlow).1 hv
      exact ⟨-n, .inr ⟨v, n, rfl, hn, rfl⟩⟩
  · rintro ⟨n, ⟨m, hm, -⟩ | ⟨rest, m, rfl, hm, -⟩⟩
    · exact ⟨[], cs, rfl, .inl rfl, (Numeral.takes_magnitudeShape_iff hcs).2 ⟨m, hm⟩⟩
    · have hlow : Text.Lowered rest := fun d hd => hcs d (List.mem_cons_of_mem _ hd)
      exact ⟨['-'], rest, rfl, .inr rfl, (Numeral.takes_magnitudeShape_iff hlow).2 ⟨m, hm⟩⟩

/-- The shape of quoted texts takes what stands between two quotes and holds no other. -/
theorem takes_quoted_iff {cs : List Char} :
    quoted.shape.Takes cs ↔ ∃ inner, cs = '"' :: (inner ++ ['"']) ∧ '"' ∉ inner := by
  have hhas (c : Char) : (⟨true, [('"', '"')]⟩ : Text.CharSet).has c = true ↔ c ≠ '"' := by
    have hle (a b : Char) : (a ≤ b) = (a.toNat ≤ b.toNat) := rfl
    simp only [Text.CharSet.has, List.any_cons, List.any_nil, Bool.or_false, bne_iff_ne, ne_eq,
      Bool.not_eq_true, Bool.and_eq_false_iff, decide_eq_false_iff_not, hle]
    rw [← Char.toNat_inj]
    omega
  unfold shape
  simp only [takes_text_seq_iff]
  constructor
  · rintro ⟨rest, rfl, u, v, rfl, hu, rfl⟩
    exact ⟨u, rfl, fun hq => (hhas _).1 (hu _ hq) rfl⟩
  · rintro ⟨inner, rfl, hq⟩
    refine ⟨inner ++ ['"'], rfl, inner, ['"'], rfl, fun c hc => (hhas c).2 ?_, rfl⟩
    rintro rfl
    exact hq hc

/-- In lower case a shape takes what is spelled as its kind and not overlooked. -/
theorem takes_shape_iff {cs : List Char} (hcs : Text.Lowered cs) (k : OperandKind) :
    k.shape.Takes cs ↔ k.Spells cs ∧ ¬ k.Overlooks cs := by
  have htail {c : Char} {rest : List Char} (h : cs = c :: rest) : Text.Lowered rest := by
    subst h
    exact fun d hd => hcs d (List.mem_cons_of_mem c hd)
  cases k with
  | label =>
    simp only [Spells, Overlooks, not_false_eq_true, and_true]
    exact takes_identShape_iff hcs
  | «variable» =>
    simp only [Spells, Overlooks, not_false_eq_true, and_true, shape, takes_text_seq_iff]
    refine exists_congr fun rest => and_congr_right fun h => ?_
    exact takes_identShape_iff (htail h)
  | address =>
    simp only [shape, takes_text_seq_iff]
    constructor
    · rintro ⟨rest, h, hrest⟩
      obtain ⟨n, hn⟩ := (Numeral.takes_magnitudeShape_iff (htail h)).1 hrest
      refine ⟨⟨rest, n, h, .inl ⟨n, hn, rfl⟩⟩, ?_⟩
      rintro ⟨tail, htail⟩
      obtain rfl : rest = '-' :: tail := List.tail_eq_of_cons_eq (h.symm.trans htail)
      exact absurd hn.head (by decide)
    · rintro ⟨⟨rest, n, h, hn⟩, hminus⟩
      have hne : ∀ tail, rest ≠ '-' :: tail := by
        rintro tail rfl
        exact hminus ⟨tail, h⟩
      obtain ⟨m, hm, -⟩ := (Numeral.writes_of_head_ne_minus hne).1 hn
      exact ⟨rest, h, (Numeral.takes_magnitudeShape_iff (htail h)).2 ⟨m, hm⟩⟩
  | number =>
    simp only [Spells, Overlooks, not_false_eq_true, and_true]
    exact takes_signed_iff hcs
  | register =>
    simp only [Spells, Overlooks, not_false_eq_true, and_true, shape, takes_text_seq_iff,
      takes_digits_iff]
    rfl
  | pointer =>
    simp only [Spells, Overlooks, not_false_eq_true, and_true, shape, takes_text_seq_iff,
      takes_digits_iff]
    rfl
  | quoted =>
    rw [takes_quoted_iff]
    constructor
    · rintro ⟨inner, rfl, hq⟩
      refine ⟨⟨inner, rfl⟩, ?_⟩
      rintro ⟨other, heq, hother⟩
      obtain rfl := List.append_inj_left' (List.tail_eq_of_cons_eq heq) rfl
      exact hq hother
    · rintro ⟨⟨inner, h⟩, hq⟩
      exact ⟨inner, h, fun hmem => hq ⟨inner, h, hmem⟩⟩

end OperandKind

/-! ## What the reader accepts -/

/-- A register is read off an index that is not too large. -/
theorem Register.exists_parse_iff {s : String} : (∃ r, Register.parse s = .ok r) ↔
    ∃ ds, s.toList = '&' :: 'r' :: ds ∧ IsIndex ds ∧ indexValue ds ≤ 255 := by
  have hread {ds : List Char} (hds : IsIndex ds) {n : Nat} :
      Numeral.readDigits 255 .decimal ds = .ok n ↔ indexValue ds = n ∧ n ≤ 255 := by
    rw [Numeral.readDigits_eq_ok_iff]
    constructor
    · rintro ⟨-, -, h⟩
      exact h
    · intro h
      exact ⟨hds.nonempty, fun d hd => (Radix.isDigit_decimal d).trans (hds.digits d hd), h⟩
  unfold Register.parse
  split
  · next d ds heq =>
    rw [heq]
    constructor
    · rintro ⟨r, hr⟩
      split at hr
      · next hdigits =>
        have hds : IsIndex (d :: ds) := ⟨List.cons_ne_nil _ _, List.all_eq_true.1 hdigits⟩
        split at hr
        · next n hn =>
          obtain ⟨hvalue, hle⟩ := (hread hds).1 hn
          exact ⟨d :: ds, rfl, hds, hvalue ▸ hle⟩
        · simp at hr
      · simp at hr
    · rintro ⟨ds', h, hds, hle⟩
      obtain rfl : d :: ds = ds' := by simpa using h
      rw [if_pos (List.all_eq_true.2 hds.digits)]
      split
      · exact ⟨_, rfl⟩
      · next e he =>
        rw [(hread hds).2 ⟨rfl, hle⟩] at he
        simp at he
  · next hnone =>
    constructor
    · rintro ⟨r, hr⟩
      simp at hr
    · rintro ⟨ds, h, hds, -⟩
      obtain ⟨d, ds', rfl⟩ := List.exists_cons_of_ne_nil hds.nonempty
      exact absurd h (hnone d ds')

namespace Operand

open OperandKind (Spells Exceeds)

/-- Quotes are taken off where they stand at both ends. -/
theorem eq_of_unquote? {cs inner : List Char} (h : unquote? cs = some inner) :
    cs = '"' :: (inner ++ ['"']) := by
  unfold unquote? at h
  split at h
  · split at h
    · next hlast =>
      obtain ⟨init, rfl⟩ := List.getLast?_eq_some_iff.1 hlast
      obtain rfl := Option.some.inj h
      rw [List.dropLast_concat]
    · simp at h
  · simp at h

/-- What is read is spelled as its kind, and its number is not too large. -/
theorem spells_of_ofChars {cs : List Char} {x : Operand} (h : ofChars cs = .ok x) :
    x.kind.Spells cs ∧ ¬ x.kind.Exceeds cs := by
  -- an index of a register is decimal digits, and not above 255
  have hindex {rest : List Char} {r : Register}
      (hr : Register.parse (String.ofList ('&' :: rest)) = .ok r) :
      ∃ ds, rest = 'r' :: ds ∧ IsIndex ds ∧ ¬ 255 < indexValue ds := by
    obtain ⟨ds, hds, hdigits, hle⟩ := Register.exists_parse_iff.1 ⟨r, hr⟩
    rw [String.toList_ofList] at hds
    exact ⟨ds, List.tail_eq_of_cons_eq hds, hdigits, Nat.not_lt.2 hle⟩
  cases readOff_of_ofChars h with
  | pointer hr =>
    obtain ⟨ds, rfl, hdigits, hle⟩ := hindex hr
    refine ⟨⟨ds, rfl, hdigits⟩, ?_⟩
    rintro ⟨ds', hds', -, hlt⟩
    obtain rfl : ds = ds' := by simpa using hds'
    exact hle hlt
  | «variable» hname => exact ⟨⟨_, rfl, hname⟩, id⟩
  | register hr =>
    obtain ⟨ds, rfl, hdigits, hle⟩ := hindex hr
    refine ⟨⟨ds, rfl, hdigits⟩, ?_⟩
    rintro ⟨ds', hds', -, hlt⟩
    obtain rfl : ds = ds' := by simpa using hds'
    exact hle hlt
  | @address rest n hn =>
    obtain ⟨hwrites, hrange⟩ := Numeral.ofChars_eq_ok_iff.1 hn
    refine ⟨⟨rest, n, rfl, hwrites⟩, ?_⟩
    rintro ⟨rest', n', hrest, hwrites', hlarge⟩
    obtain rfl := List.tail_eq_of_cons_eq hrest
    exact hlarge (hwrites.unique hwrites' ▸ hrange)
  | @quoted _ inner hinner => exact ⟨⟨inner, eq_of_unquote? hinner⟩, id⟩
  | @number _ n hn =>
    obtain ⟨hwrites, hrange⟩ := Numeral.ofChars_eq_ok_iff.1 hn
    refine ⟨⟨n, hwrites⟩, ?_⟩
    rintro ⟨n', hwrites', hlarge⟩
    exact hlarge (hwrites.unique hwrites' ▸ hrange)
  | label hname => exact ⟨hname, id⟩

/-- What is spelled as a kind is read as that kind, unless its number is too large. -/
theorem exists_ofChars_of_spells {k : OperandKind} {cs : List Char} (h : k.Spells cs)
    (hsmall : ¬ k.Exceeds cs) : ∃ x, ofChars cs = .ok x ∧ x.kind = k := by
  cases k with
  | label => exact ⟨_, ofChars_label h, rfl⟩
  | «variable» =>
    obtain ⟨name, rfl, hname⟩ := h
    exact ⟨_, ofChars_variable hname, rfl⟩
  | address =>
    obtain ⟨rest, n, rfl, hn⟩ := h
    have hrange : Numeral.InRange n := by
      refine Classical.byContradiction fun hlarge => hsmall ⟨rest, n, rfl, hn, hlarge⟩
    refine ⟨.address n, ?_, rfl⟩
    rw [ofChars.eq_4, Numeral.ofChars_eq_ok_iff.2 ⟨hn, hrange⟩]
  | number =>
    obtain ⟨n, hn⟩ := h
    have hrange : Numeral.InRange n := by
      refine Classical.byContradiction fun hlarge => hsmall ⟨n, hn, hlarge⟩
    refine ⟨.number n, ?_, rfl⟩
    cases cs with
    | nil => exact absurd hn (Numeral.not_writes_nil n)
    | cons c cs =>
      have hne := ne_of_isDigit_or_minus hn.head
      rw [ofChars_of_unmarked (hne _ (by decide) (by decide)) (hne _ (by decide) (by decide))
        (hne _ (by decide) (by decide)), unquote?_of_ne (hne _ (by decide) (by decide)),
        Numeral.ofChars_eq_ok_iff.2 ⟨hn, hrange⟩]
  | register =>
    obtain ⟨ds, rfl, hindex⟩ := h
    have hle : indexValue ds ≤ 255 :=
      Nat.not_lt.1 fun hlt => hsmall ⟨ds, rfl, hindex, hlt⟩
    obtain ⟨r, hr⟩ := Register.exists_parse_iff.2
      ⟨ds, String.toList_ofList, hindex, hle⟩
    refine ⟨.register r, ?_, rfl⟩
    rw [ofChars.eq_3, hr]
  | pointer =>
    obtain ⟨ds, rfl, hindex⟩ := h
    have hle : indexValue ds ≤ 255 :=
      Nat.not_lt.1 fun hlt => hsmall ⟨ds, rfl, hindex, hlt⟩
    obtain ⟨r, hr⟩ := Register.exists_parse_iff.2
      ⟨ds, String.toList_ofList, hindex, hle⟩
    refine ⟨.pointer r, ?_, rfl⟩
    rw [ofChars.eq_1, hr]
  | quoted =>
    obtain ⟨inner, rfl⟩ := h
    exact ⟨_, ofChars_quoted inner, rfl⟩

end Operand

namespace OperandKind

theorem Exceeds.spells {k : OperandKind} {cs : List Char} (h : k.Exceeds cs) : k.Spells cs := by
  cases k with
  | address =>
    obtain ⟨rest, n, hcs, hn, -⟩ := h
    exact ⟨rest, n, hcs, hn⟩
  | number =>
    obtain ⟨n, hn, -⟩ := h
    exact ⟨n, hn⟩
  | register =>
    obtain ⟨ds, hcs, hds, -⟩ := h
    exact ⟨ds, hcs, hds⟩
  | pointer =>
    obtain ⟨ds, hcs, hds, -⟩ := h
    exact ⟨ds, hcs, hds⟩
  | label => exact absurd h id
  | «variable» => exact absurd h id
  | quoted => exact absurd h id

/-- The reader reads what is spelled as a kind if no number in it is too large. -/
theorem reads_iff {s : String} (hs : Text.Trimmed s.toList) (k : OperandKind) :
    k.Reads s ↔ k.Spells s.toList ∧ ¬ k.Exceeds s.toList := by
  unfold Reads Operand.parse
  rw [Text.trim_eq_self hs]
  constructor
  · rintro ⟨x, hx, rfl⟩
    exact Operand.spells_of_ofChars hx
  · rintro ⟨hspells, hsmall⟩
    exact Operand.exists_ofChars_of_spells hspells hsmall

/-- A text with a number that is too large is not read at all. -/
theorem Exceeds.exists_error {s : String} (hs : Text.Trimmed s.toList) {k : OperandKind}
    (h : k.Exceeds s.toList) : ∃ e, Operand.parse s = .error e := by
  cases hparse : Operand.parse s with
  | error e => exact ⟨e, rfl⟩
  | ok x =>
    obtain ⟨hspells, hsmall⟩ := (reads_iff hs x.kind).1 ⟨x, hparse, rfl⟩
    have hk : x.kind = k := hspells.ofMark_eq.symm.trans h.spells.ofMark_eq
    exact absurd (hk ▸ h) hsmall

/-! ## Both together -/

/-- **Shapes and the reader agree on operands.** In lower case and without blanks at the ends, the
    shape of a kind accepts a text exactly when the text is read as an operand of that kind, with
    three differences: a number that is too large is accepted, though nothing is read then; an address
    with a minus, and a quoted text with a further quote in it, are read and not accepted. No text is
    accepted by the shapes of two kinds. -/
theorem accepts_iff_reads {s : String} (hlow : Text.Lowered s.toList)
    (htrim : Text.Trimmed s.toList) (k : OperandKind) :
    (k.shape.accepts s.toList = true ↔
      (k.Reads s ∨ k.Exceeds s.toList) ∧ ¬ k.Overlooks s.toList) ∧
    (k.Exceeds s.toList → ∃ e, Operand.parse s = .error e) ∧
    ∀ k' : OperandKind, k.shape.accepts s.toList = true → k'.shape.accepts s.toList = true →
      k' = k := by
  refine ⟨?_, fun h => h.exists_error htrim, fun k' h h' => ?_⟩
  · rw [Shape.accepts_iff, takes_shape_iff hlow, reads_iff htrim]
    refine and_congr_left fun _ => ?_
    by_cases h : k.Exceeds s.toList
    · simp [h, h.spells]
    · simp [h]
  · rw [Shape.accepts_iff, takes_shape_iff hlow] at h h'
    exact h'.1.ofMark_eq.symm.trans h.1.ofMark_eq

/-- A text for each difference. -/
theorem accepts_outliers :
    (number.shape.accepts "0x80000000".toList = true ∧
      ∃ e, Operand.parse "0x80000000" = .error e) ∧
    (address.Reads "$-5" ∧ address.shape.accepts "$-5".toList = false) ∧
    quoted.Reads "\"a\"b\"" ∧ quoted.shape.accepts "\"a\"b\"".toList = false := by
  have hdigits : ∀ d ∈ "80000000".toList, Radix.hexadecimal.isDigit d = true :=
    List.all_eq_true.1 rfl
  have hlarge : number.Exceeds "0x80000000".toList :=
    ⟨2147483648, .inl ⟨2147483648, ⟨.hexadecimal, "80000000".toList, by decide,
      by decide, hdigits, by decide +kernel⟩, rfl⟩,
      show ¬ 2147483648 ≤ Numeral.limit by decide⟩
  have hminus : address.Overlooks "$-5".toList := ⟨['5'], by decide⟩
  have hquote : quoted.Overlooks "\"a\"b\"".toList := ⟨"a\"b".toList, by decide⟩
  obtain ⟨hnumber, herror, -⟩ := accepts_iff_reads (s := "0x80000000") (by decide)
    (by decide) number
  obtain ⟨haddress, -⟩ := accepts_iff_reads (s := "$-5") (by decide) (by decide +kernel)
    address
  obtain ⟨hquoted, -⟩ := accepts_iff_reads (s := "\"a\"b\"") (by decide)
    (by decide) quoted
  refine ⟨⟨hnumber.2 ⟨.inr hlarge, id⟩, herror hlarge⟩, ⟨⟨.address (-5), by rfl, rfl⟩, ?_⟩,
    ⟨.quoted "a\"b", by rfl, rfl⟩, ?_⟩
  · exact Bool.eq_false_iff.2 fun h => (haddress.1 h).2 hminus
  · exact Bool.eq_false_iff.2 fun h => (hquoted.1 h).2 hquote

end OperandKind

end MacroAsm
