import MacroAsm.Isa.OperandKind
import MacroAsm.Proofs.Isa.Numerals
import MacroAsm.Proofs.Text.LowerCase
import MacroAsm.Proofs.Text.Shapes

set_option autoImplicit false

/-! # The numbers that texts write

A magnitude is written as digits of a base behind the name of that base (`Numeral.Spells`), and a
numeral may have a minus in front (`Numeral.Writes`). Of these texts the reader takes those whose
number is within its limit (`Numeral.ofChars_eq_ok_iff`), and in lower case the shape of magnitudes
takes all of them (`Numeral.takes_magnitudeShape_iff`). -/

namespace MacroAsm

/-! ## Digits -/

namespace Radix

/-- The name of a base, which stands in front of its digits; the decimal base has none. -/
def mark : Radix → List Char
  | .binary => ['0', 'b']
  | .octal => ['0', 'o']
  | .decimal => []
  | .hexadecimal => ['0', 'x']

/-- Whether a character is a digit of a base. -/
def isDigit (radix : Radix) (c : Char) : Bool :=
  (digitValue? c).any fun d => d < radix.base

/-- The number that digits write behind those of another number. -/
def valueOnto (radix : Radix) (value : Nat) (ds : List Char) : Nat :=
  ds.foldl (fun n d => n * radix.base + (digitValue? d).getD 0) value

variable {radix : Radix}

theorem isDigit_iff {c : Char} :
    radix.isDigit c = true ↔ ∃ d, digitValue? c = some d ∧ d < radix.base := by
  unfold isDigit
  cases digitValue? c <;> simp

theorem base_pos (radix : Radix) : 0 < radix.base := by
  cases radix <;> decide

/-- More digits never make a number smaller. -/
theorem le_valueOnto (value : Nat) (ds : List Char) : value ≤ radix.valueOnto value ds := by
  induction ds generalizing value with
  | nil => exact Nat.le_refl value
  | cons d ds ih =>
    have hmul := Nat.le_mul_of_pos_right value radix.base_pos
    exact Nat.le_trans (Nat.le_add_right_of_le hmul) (ih _)

/-- The decimal digits are those of the base ten. -/
theorem isDigit_decimal (c : Char) : Radix.decimal.isDigit c = c.isDigit := by
  rw [Bool.eq_iff_iff]
  constructor
  · intro h
    obtain ⟨d, hd, hlt⟩ := isDigit_iff.1 h
    cases hc : c.isDigit with
    | true => rfl
    | false => exact absurd hlt (Nat.not_lt.2 (Numeral.le_of_digitValue? hc hd))
  · intro h
    have hrange := Text.isDigit_iff.1 h
    refine isDigit_iff.2 ⟨_, Numeral.digitValue?_of_isDigit h, ?_⟩
    show c.toNat - 48 < 10
    omega

/-- A base that is read off a text is named at its front. -/
theorem eq_mark_append_split (cs : List Char) : cs = (split cs).1.mark ++ (split cs).2 := by
  unfold split
  split <;> rfl

/-- The digits of a base are found behind its name. -/
theorem split_mark_append {ds : List Char} (h : ∀ d ∈ ds, radix.isDigit d = true) :
    split (radix.mark ++ ds) = (radix, ds) := by
  cases radix with
  | decimal => exact Numeral.split_of_isDigit fun d hd => isDigit_decimal d ▸ h d hd
  | _ => rfl

end Radix

namespace Numeral

open Radix (valueOnto)

/-! ## Magnitudes -/

theorem readOnto_eq_ok_iff {limit value n : Nat} {radix : Radix} {cs : List Char}
    (hvalue : value ≤ limit) : readOnto limit radix value cs = .ok n ↔
      (∀ c ∈ cs, radix.isDigit c = true) ∧ radix.valueOnto value cs = n ∧ n ≤ limit := by
  induction cs generalizing value with
  | nil =>
    simp only [readOnto, Except.ok.injEq, List.not_mem_nil, false_imp_iff, forall_const, true_and]
    constructor
    · rintro rfl
      exact ⟨rfl, hvalue⟩
    · rintro ⟨rfl, -⟩
      rfl
  | cons c cs ih =>
    rw [readOnto, List.forall_mem_cons]
    cases hc : digitValue? c with
    | none => simp [Radix.isDigit_iff, hc]
    | some d =>
      have hstep : radix.valueOnto value (c :: cs) =
          radix.valueOnto (value * radix.base + d) cs := by
        simp [Radix.valueOnto, hc]
      by_cases hbase : radix.base ≤ d
      · have hdigit : radix.isDigit c = false := by simpa [Radix.isDigit, hc] using hbase
        simp [hbase, hdigit]
      · have hdigit : radix.isDigit c = true := Radix.isDigit_iff.2 ⟨d, hc, by omega⟩
        by_cases hlimit : limit < value * radix.base + d
        · -- the digits behind this one do not bring the number back to the limit
          have hle : value * radix.base + d ≤ radix.valueOnto (value * radix.base + d) cs :=
            Radix.le_valueOnto _ cs
          simp only [if_neg hbase, if_pos hlimit, hstep, reduceCtorEq, false_iff]
          rintro ⟨-, rfl, hn⟩
          omega
        · simp only [if_neg hbase, if_neg hlimit, hstep, hdigit, true_and]
          exact ih (by omega)

/-- Digits are read as their number if it is within the limit. -/
theorem readDigits_eq_ok_iff {limit n : Nat} {radix : Radix} {cs : List Char} :
    readDigits limit radix cs = .ok n ↔
      cs ≠ [] ∧ (∀ c ∈ cs, radix.isDigit c = true) ∧ radix.valueOnto 0 cs = n ∧ n ≤ limit := by
  cases cs with
  | nil => simp [readDigits]
  | cons c cs =>
    rw [readDigits]
    by_cases hsign : c = '+' ∨ c = '-'
    · -- a sign is no digit
      have hc : radix.isDigit c = false := by
        rcases hsign with rfl | rfl <;> rfl
      simp [hsign, hc]
    · rw [if_neg (by simpa using hsign), readOnto_eq_ok_iff (Nat.zero_le limit)]
      simp

/-- Whether a text without a sign writes a number: digits of some base behind its name. -/
def Spells (cs : List Char) (n : Nat) : Prop :=
  ∃ (radix : Radix) (ds : List Char), cs = radix.mark ++ ds ∧ ds ≠ [] ∧
    (∀ d ∈ ds, radix.isDigit d = true) ∧ radix.valueOnto 0 ds = n

/-- A magnitude is read as the number that it writes, up to the limit. -/
theorem readMagnitude_eq_ok_iff {cs : List Char} {n : Nat} :
    readMagnitude cs = .ok n ↔ Spells cs n ∧ n ≤ limit := by
  rw [readMagnitude, readDigits_eq_ok_iff]
  constructor
  · rintro ⟨hne, hdigits, hvalue, hn⟩
    exact ⟨⟨_, _, Radix.eq_mark_append_split cs, hne, hdigits, hvalue⟩, hn⟩
  · rintro ⟨⟨radix, ds, rfl, hne, hdigits, hvalue⟩, hn⟩
    rw [Radix.split_mark_append hdigits]
    exact ⟨hne, hdigits, hvalue, hn⟩

/-- A text writes one number. -/
theorem Spells.unique {cs : List Char} {m n : Nat} (hm : Spells cs m) (hn : Spells cs n) :
    m = n := by
  obtain ⟨radix, ds, hcs, -, hdigits, rfl⟩ := hm
  obtain ⟨radix', ds', hcs', -, hdigits', rfl⟩ := hn
  have hsplit := Radix.split_mark_append hdigits
  rw [← hcs, hcs', Radix.split_mark_append hdigits'] at hsplit
  obtain ⟨rfl, rfl⟩ := Prod.mk.inj hsplit
  rfl

/-- A magnitude begins with a decimal digit. -/
theorem Spells.head {c : Char} {cs : List Char} {n : Nat} (h : Spells (c :: cs) n) :
    c.isDigit = true := by
  obtain ⟨radix, ds, hcs, hne, hdigits, -⟩ := h
  cases radix with
  | decimal =>
    have hmem : c ∈ ds := by
      rw [← show c :: cs = ds from hcs]
      exact List.mem_cons_self
    rw [← Radix.isDigit_decimal]
    exact hdigits c hmem
  | _ =>
    obtain rfl := List.head_eq_of_cons_eq hcs
    decide

theorem not_spells_nil (n : Nat) : ¬ Spells [] n := by
  rintro ⟨radix, ds, hcs, hne, -⟩
  exact hne (List.append_eq_nil_iff.1 hcs.symm).2

/-! ## Numerals -/

/-- Whether a text writes a number, a negative one with a minus in front. -/
def Writes (cs : List Char) (n : Int) : Prop :=
  (∃ m, Spells cs m ∧ n = m) ∨ ∃ rest m, cs = '-' :: rest ∧ Spells rest m ∧ n = -(m : Int)

/-- A magnitude has no sign of its own. -/
theorem writes_cons_minus {rest : List Char} {n : Int} :
    Writes ('-' :: rest) n ↔ ∃ m, Spells rest m ∧ n = -(m : Int) := by
  constructor
  · rintro (⟨m, hm, -⟩ | ⟨rest', m, hcs, hm, hn⟩)
    · exact absurd hm.head (by decide)
    · obtain rfl := List.tail_eq_of_cons_eq hcs
      exact ⟨m, hm, hn⟩
  · rintro ⟨m, hm, hn⟩
    exact .inr ⟨rest, m, rfl, hm, hn⟩

theorem writes_of_head_ne_minus {cs : List Char} (h : ∀ rest, cs ≠ '-' :: rest) {n : Int} :
    Writes cs n ↔ ∃ m, Spells cs m ∧ n = m := by
  constructor
  · rintro (hm | ⟨rest, m, rfl, -⟩)
    · exact hm
    · exact absurd rfl (h rest)
  · exact .inl

theorem ofChars_minus_eq_ok_iff {rest : List Char} {n : Int} :
    ofChars ('-' :: rest) = .ok n ↔ ∃ m, readMagnitude rest = .ok m ∧ n = -(m : Int) := by
  rw [ofChars]
  cases readMagnitude rest with
  | error e => simp [Except.map, bind, Except.bind]
  | ok m => simp [Except.map, bind, Except.bind, pure, Except.pure, eq_comm]

theorem ofChars_eq_ok_iff_of_head {cs : List Char} (h : ∀ rest, cs ≠ '-' :: rest) {n : Int} :
    ofChars cs = .ok n ↔ ∃ m, readMagnitude cs = .ok m ∧ n = m := by
  rw [ofChars.eq_2 cs fun rest hcs => h rest hcs]
  cases readMagnitude cs with
  | error e => simp [Except.map, bind, Except.bind]
  | ok m => simp [Except.map, bind, Except.bind, pure, Except.pure, eq_comm]

/-- A numeral is read as the number that it writes, if that is in range. -/
theorem ofChars_eq_ok_iff {cs : List Char} {n : Int} :
    ofChars cs = .ok n ↔ Writes cs n ∧ InRange n := by
  by_cases h : ∃ rest, cs = '-' :: rest
  · obtain ⟨rest, rfl⟩ := h
    rw [ofChars_minus_eq_ok_iff, writes_cons_minus]
    simp only [readMagnitude_eq_ok_iff]
    constructor
    · rintro ⟨m, ⟨hm, hle⟩, rfl⟩
      exact ⟨⟨m, hm, rfl⟩, by simpa [InRange] using hle⟩
    · rintro ⟨⟨m, hm, rfl⟩, hle⟩
      exact ⟨m, ⟨hm, by simpa [InRange] using hle⟩, rfl⟩
  · have hminus : ∀ rest, cs ≠ '-' :: rest := fun rest hcs => h ⟨rest, hcs⟩
    rw [ofChars_eq_ok_iff_of_head hminus, writes_of_head_ne_minus hminus]
    simp only [readMagnitude_eq_ok_iff]
    constructor
    · rintro ⟨m, ⟨hm, hle⟩, rfl⟩
      exact ⟨⟨m, hm, rfl⟩, by simpa [InRange] using hle⟩
    · rintro ⟨⟨m, hm, rfl⟩, hle⟩
      exact ⟨m, ⟨hm, by simpa [InRange] using hle⟩, rfl⟩

theorem Writes.unique {cs : List Char} {m n : Int} (hm : Writes cs m) (hn : Writes cs n) :
    m = n := by
  by_cases h : ∃ rest, cs = '-' :: rest
  · obtain ⟨rest, rfl⟩ := h
    obtain ⟨k, hk, rfl⟩ := writes_cons_minus.1 hm
    obtain ⟨l, hl, rfl⟩ := writes_cons_minus.1 hn
    rw [hk.unique hl]
  · have hminus : ∀ rest, cs ≠ '-' :: rest := fun rest hcs => h ⟨rest, hcs⟩
    obtain ⟨k, hk, rfl⟩ := (writes_of_head_ne_minus hminus).1 hm
    obtain ⟨l, hl, rfl⟩ := (writes_of_head_ne_minus hminus).1 hn
    rw [hk.unique hl]

/-- A numeral begins with a decimal digit or a minus. -/
theorem Writes.head {c : Char} {cs : List Char} {n : Int} (h : Writes (c :: cs) n) :
    c.isDigit = true ∨ c = '-' := by
  rcases h with ⟨m, hm, -⟩ | ⟨rest, m, hcs, -⟩
  · exact .inl hm.head
  · exact .inr (List.head_eq_of_cons_eq hcs)

theorem not_writes_nil (n : Int) : ¬ Writes [] n := by
  rintro (⟨m, hm, -⟩ | ⟨rest, m, hcs, -⟩)
  · exact not_spells_nil m hm
  · exact absurd hcs (List.cons_ne_nil _ _).symm

end Numeral

/-! ## The shape of magnitudes -/

open Text (CharSet Shape)

namespace Radix

/-- The digits of a base in lower case. -/
def digitSet : Radix → CharSet
  | .binary => ⟨false, [('0', '0'), ('1', '1')]⟩
  | .octal => ⟨false, [('0', '7')]⟩
  | .decimal => OperandKind.digits
  | .hexadecimal => ⟨false, [('0', '9'), ('a', 'f')]⟩

theorem toNat_lt_of_digitValue? {c : Char} {d : Nat} (h : digitValue? c = some d) :
    c.toNat < 128 := by
  have hle (a b : Char) : (a ≤ b) = (a.toNat ≤ b.toNat) := rfl
  unfold digitValue? at h
  simp only [hle, Char.reduceToNat, Bool.and_eq_true, decide_eq_true_eq] at h
  split at h
  · omega
  · split at h
    · omega
    · split at h
      · omega
      · simp at h

theorem toNat_lt_of_has_digitSet {radix : Radix} {c : Char} (h : radix.digitSet.has c = true) :
    c.toNat < 128 := by
  have hle (a b : Char) : (a ≤ b) = (a.toNat ≤ b.toNat) := rfl
  cases radix <;>
    simp [digitSet, OperandKind.digits, CharSet.has, hle] at h <;> omega

/-- In lower case the digits of a base are those of its set. -/
theorem has_digitSet_iff {radix : Radix} {c : Char} (hc : c.isUpper = false) :
    radix.digitSet.has c = true ↔ radix.isDigit c = true := by
  have hascii (h : c.toNat < 128) : radix.digitSet.has c = radix.isDigit c := by
    have hall := Text.forall_ascii (p := fun c => c.isUpper ||
      radix.digitSet.has c == radix.isDigit c) (by cases radix <;> decide) h
    simpa [hc] using hall
  constructor
  · intro h
    rwa [← hascii (toNat_lt_of_has_digitSet h)]
  · intro h
    obtain ⟨d, hd, -⟩ := isDigit_iff.1 h
    rwa [hascii (toNat_lt_of_digitValue? hd)]

end Radix

namespace Numeral

/-- The texts of one base. -/
theorem takes_mark_iff {radix : Radix} {cs : List Char} (hcs : Text.Lowered cs) :
    (Shape.seq (.text radix.mark) (.some radix.digitSet)).Takes cs ↔
      ∃ ds, cs = radix.mark ++ ds ∧ ds ≠ [] ∧ ∀ d ∈ ds, radix.isDigit d = true := by
  constructor
  · rintro ⟨u, ds, rfl, rfl, hne, hdigits⟩
    refine ⟨ds, rfl, hne, fun d hd => ?_⟩
    exact (Radix.has_digitSet_iff (hcs d (List.mem_append_right _ hd))).1 (hdigits d hd)
  · rintro ⟨ds, rfl, hne, hdigits⟩
    refine ⟨radix.mark, ds, rfl, rfl, hne, fun d hd => ?_⟩
    exact (Radix.has_digitSet_iff (hcs d (List.mem_append_right _ hd))).2 (hdigits d hd)

/-- In lower case the shape of magnitudes takes all texts that write one, however large. -/
theorem takes_magnitudeShape_iff {cs : List Char} (hcs : Text.Lowered cs) :
    OperandKind.magnitudeShape.Takes cs ↔ ∃ n, Spells cs n := by
  have hdecimal : (Shape.some OperandKind.digits).Takes cs ↔
      (Shape.seq (.text Radix.decimal.mark) (.some Radix.decimal.digitSet)).Takes cs := by
    constructor
    · intro h
      exact ⟨[], cs, rfl, rfl, h⟩
    · rintro ⟨u, ds, rfl, rfl, h⟩
      exact h
  have hspells : (∃ n, Spells cs n) ↔ ∃ (radix : Radix) (ds : List Char),
      cs = radix.mark ++ ds ∧ ds ≠ [] ∧ ∀ d ∈ ds, radix.isDigit d = true := by
    constructor
    · rintro ⟨n, radix, ds, hds, hne, hdigits, -⟩
      exact ⟨radix, ds, hds, hne, hdigits⟩
    · rintro ⟨radix, ds, hds, hne, hdigits⟩
      exact ⟨_, radix, ds, hds, hne, hdigits, rfl⟩
  rw [hspells]
  simp only [← takes_mark_iff hcs]
  constructor
  · rintro (h | h | h | h)
    · exact ⟨.hexadecimal, h⟩
    · exact ⟨.binary, h⟩
    · exact ⟨.octal, h⟩
    · exact ⟨.decimal, hdecimal.1 h⟩
  · rintro ⟨radix, h⟩
    cases radix with
    | hexadecimal => exact .inl h
    | binary => exact .inr (.inl h)
    | octal => exact .inr (.inr (.inl h))
    | decimal => exact .inr (.inr (.inr (hdecimal.2 h)))

end Numeral

end MacroAsm
