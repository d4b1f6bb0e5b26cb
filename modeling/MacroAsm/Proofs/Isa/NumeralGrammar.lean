import Mathlib.Data.List.Forall2
import Mathlib.Data.Nat.Digits.Defs
import MacroAsm.Proofs.Isa.Magnitudes

set_option autoImplicit false

/-! # The grammar of numerals

A numeral is an optional minus, the name of a base and at least one digit of that base
(`Numeral.Denotes`). A digit has its place in `0123456789abcdef` as its value, and digits write a
number in the positional notation of their base, so this grammar does not go through the reader. The
reader takes exactly the numerals whose magnitude has 31 bits, and of every other text it tells in
which way it is none (`Numeral.parse_iff`). -/

namespace MacroAsm

/-! ## Digits and their values -/

namespace Radix

/-- The digits of all bases in the order of their values. -/
def digitOrder : List Char :=
  ['0', '1', '2', '3', '4', '5', '6', '7', '8', '9', 'a', 'b', 'c', 'd', 'e', 'f']

/-- Whether a character is a digit of a base with some value: its place in the order of the digits,
    for letters of either case. -/
def HasDigit (radix : Radix) (c : Char) (d : Nat) : Prop :=
  digitOrder.idxOf? c.toLower = some d ∧ d < radix.base

/-- Whether characters are digits of a base that write a number, the digit of the highest place in
    front. -/
def Digits (radix : Radix) (ds : List Char) (n : Nat) : Prop :=
  ∃ values, List.Forall₂ radix.HasDigit ds values ∧ Nat.ofDigits radix.base values.reverse = n

variable {radix : Radix}

/-- The value of a digit is its place in the order. -/
theorem digitValue?_eq_idxOf? (c : Char) : digitValue? c = digitOrder.idxOf? c.toLower := by
  by_cases hc : c.toNat < 128
  · have hall := Text.forall_ascii
      (p := fun c => digitValue? c == digitOrder.idxOf? c.toLower) (by decide) hc
    simpa using hall
  · have hupper : c.isUpper = false := by
      rw [Bool.eq_false_iff, Ne, Text.isUpper_iff]
      omega
    have horder : ∀ d ∈ digitOrder, d.toNat < 128 := by simp [digitOrder]
    have hvalue : digitValue? c = none :=
      Option.eq_none_iff_forall_ne_some.2 fun d hd => hc (toNat_lt_of_digitValue? hd)
    rw [hvalue, Text.toLower_eq_self hupper, eq_comm, List.idxOf?_eq_none_iff]
    exact fun hmem => hc (horder c hmem)

theorem hasDigit_iff {c : Char} {d : Nat} :
    radix.HasDigit c d ↔ radix.isDigit c = true ∧ (digitValue? c).getD 0 = d := by
  rw [HasDigit, ← digitValue?_eq_idxOf?, isDigit]
  cases digitValue? c with
  | none => simp
  | some e =>
    simp only [Option.some.injEq, Option.any_some, decide_eq_true_eq, Option.getD_some]
    constructor
    · rintro ⟨rfl, h⟩
      exact ⟨h, rfl⟩
    · rintro ⟨h, rfl⟩
      exact ⟨rfl, h⟩

theorem not_hasDigit_iff {c : Char} :
    (∀ d, ¬ radix.HasDigit c d) ↔ radix.isDigit c = false := by
  simp [hasDigit_iff]

theorem forall₂_hasDigit_iff {ds : List Char} {values : List Nat} :
    List.Forall₂ radix.HasDigit ds values ↔
      (∀ d ∈ ds, radix.isDigit d = true) ∧ ds.map (fun d => (digitValue? d).getD 0) = values := by
  induction ds generalizing values with
  | nil => cases values <;> simp
  | cons d ds ih =>
    cases values with
    | nil => simp
    | cons v values =>
      rw [List.forall₂_cons, ih, hasDigit_iff, List.forall_mem_cons, List.map_cons,
        List.cons.injEq]
      tauto

/-- The positional notation is read from its highest place. -/
theorem ofDigits_reverse (base : Nat) (values : List Nat) :
    Nat.ofDigits base values.reverse = values.foldl (fun n d => n * base + d) 0 := by
  rw [Nat.ofDigits_eq_foldr, List.foldr_reverse]
  refine congrArg (List.foldl · 0 values) (funext₂ fun n d => ?_)
  rw [Nat.cast_id, Nat.mul_comm, Nat.add_comm]

/-- The number of digits in positional notation is the one that is added up from the left. -/
theorem digits_iff {ds : List Char} {n : Nat} :
    radix.Digits ds n ↔ (∀ d ∈ ds, radix.isDigit d = true) ∧ radix.valueOnto 0 ds = n := by
  have hvalue : Nat.ofDigits radix.base (ds.map fun d => (digitValue? d).getD 0).reverse =
      radix.valueOnto 0 ds := by
    rw [ofDigits_reverse, List.foldl_map, valueOnto]
  constructor
  · rintro ⟨values, hvalues, rfl⟩
    obtain ⟨hdigits, rfl⟩ := forall₂_hasDigit_iff.1 hvalues
    exact ⟨hdigits, hvalue.symm⟩
  · rintro ⟨hdigits, rfl⟩
    exact ⟨_, forall₂_hasDigit_iff.2 ⟨hdigits, rfl⟩, hvalue⟩

/-! ## The name of a base -/

/-- Whether a text names a base at its front, and goes on with a rest behind the name. A text that
    names no base is decimal. -/
def Names (radix : Radix) (cs rest : List Char) : Prop :=
  cs = radix.mark ++ rest ∧
    (radix = .decimal → ∀ other : Radix, other ≠ .decimal → ¬ other.mark <+: cs)

theorem split_eq_iff {cs rest : List Char} : split cs = (radix, rest) ↔ radix.Names cs rest := by
  constructor
  · intro h
    have hcs := eq_mark_append_split cs
    rw [h] at hcs
    refine ⟨hcs, ?_⟩
    rintro rfl other hother ⟨behind, rfl⟩
    cases other with
    | decimal => exact hother rfl
    | _ => cases h
  · rintro ⟨rfl, hother⟩
    cases radix with
    | decimal =>
      unfold split
      split
      · next heq => exact absurd ⟨_, heq.symm⟩ (hother rfl .binary (by decide))
      · next heq => exact absurd ⟨_, heq.symm⟩ (hother rfl .octal (by decide))
      · next heq => exact absurd ⟨_, heq.symm⟩ (hother rfl .hexadecimal (by decide))
      · rfl
    | _ => rfl

end Radix

/-! ## Magnitudes that are not read -/

namespace Numeral

section Digits

variable {limit value : Nat} {radix : Radix} {cs : List Char}

/-- One more digit is read onto the number, unless that takes the number beyond the limit. -/
theorem readOnto_cons (limit value : Nat) (c : Char) (cs : List Char) :
    readOnto limit radix value (c :: cs) =
      if radix.isDigit c then
        if limit < radix.valueOnto value [c] then .error .tooLarge
        else readOnto limit radix (radix.valueOnto value [c]) cs
      else .error .badDigit := by
  rw [readOnto, Radix.isDigit, Radix.valueOnto, List.foldl_cons, List.foldl_nil]
  cases digitValue? c with
  | none => rfl
  | some d =>
    by_cases hbase : radix.base ≤ d
    · simp [hbase]
    · simp [hbase, Nat.lt_of_not_le hbase]

/-- Reading stops at the digit that takes the number beyond the limit. -/
theorem readOnto_eq_tooLarge_iff (hvalue : value ≤ limit) :
    readOnto limit radix value cs = .error .tooLarge ↔ ∃ ds rest, cs = ds ++ rest ∧
      (∀ d ∈ ds, radix.isDigit d = true) ∧ limit < radix.valueOnto value ds := by
  induction cs generalizing value with
  | nil =>
    constructor
    · intro h
      simp [readOnto] at h
    · rintro ⟨ds, rest, hcs, -, hlimit⟩
      obtain ⟨rfl, -⟩ := List.append_eq_nil_iff.1 hcs.symm
      exact absurd hlimit (Nat.not_lt.2 hvalue)
  | cons c cs ih =>
    rw [readOnto_cons]
    -- without a digit the number is still within the limit, so the first one is needed
    have hcons : (∃ ds rest, c :: cs = ds ++ rest ∧ (∀ d ∈ ds, radix.isDigit d = true) ∧
        limit < radix.valueOnto value ds) ↔ radix.isDigit c = true ∧ ∃ ds rest, cs = ds ++ rest ∧
          (∀ d ∈ ds, radix.isDigit d = true) ∧
            limit < radix.valueOnto (radix.valueOnto value [c]) ds := by
      constructor
      · rintro ⟨ds, rest, hcs, hdigits, hlimit⟩
        cases ds with
        | nil => exact absurd hlimit (Nat.not_lt.2 hvalue)
        | cons d ds =>
          obtain ⟨rfl, rfl⟩ := List.cons_eq_cons.1 hcs
          obtain ⟨hc, hdigits⟩ := List.forall_mem_cons.1 hdigits
          exact ⟨hc, ds, rest, rfl, hdigits, hlimit⟩
      · rintro ⟨hc, ds, rest, rfl, hdigits, hlimit⟩
        exact ⟨c :: ds, rest, rfl, List.forall_mem_cons.2 ⟨hc, hdigits⟩, hlimit⟩
    rw [hcons]
    by_cases hc : radix.isDigit c = true
    · by_cases hlimit : limit < radix.valueOnto value [c]
      · rw [if_pos hc, if_pos hlimit]
        exact iff_of_true rfl ⟨hc, [], cs, rfl, by simp, hlimit⟩
      · rw [if_pos hc, if_neg hlimit, ih (Nat.le_of_not_lt hlimit), and_iff_right hc]
    · simp [hc]

/-- Reading stops at the first character that is no digit. -/
theorem readOnto_eq_badDigit_iff (hvalue : value ≤ limit) :
    readOnto limit radix value cs = .error .badDigit ↔ ∃ ds c rest, cs = ds ++ c :: rest ∧
      (∀ d ∈ ds, radix.isDigit d = true) ∧ radix.valueOnto value ds ≤ limit ∧
        radix.isDigit c = false := by
  induction cs generalizing value with
  | nil => simp [readOnto]
  | cons c cs ih =>
    rw [readOnto_cons]
    by_cases hc : radix.isDigit c = true
    · by_cases hlimit : limit < radix.valueOnto value [c]
      · simp only [if_pos hc, if_pos hlimit, Except.error.injEq, reduceCtorEq, false_iff]
        rintro ⟨ds, d, rest, hcs, -, hle, hd⟩
        cases ds with
        | nil =>
          obtain ⟨rfl, -⟩ := List.cons_eq_cons.1 hcs
          exact absurd (hd.symm.trans hc) Bool.false_ne_true
        | cons e ds =>
          obtain ⟨rfl, -⟩ := List.cons_eq_cons.1 hcs
          have hmore : radix.valueOnto value [c] ≤ radix.valueOnto (radix.valueOnto value [c]) ds :=
            Radix.le_valueOnto _ ds
          exact absurd (Nat.le_trans hmore hle) (Nat.not_le.2 hlimit)
      · simp only [if_pos hc, if_neg hlimit]
        rw [ih (Nat.le_of_not_lt hlimit)]
        constructor
        · rintro ⟨ds, d, rest, rfl, hdigits, hle, hd⟩
          exact ⟨c :: ds, d, rest, rfl, List.forall_mem_cons.2 ⟨hc, hdigits⟩, hle, hd⟩
        · rintro ⟨ds, d, rest, hcs, hdigits, hle, hd⟩
          cases ds with
          | nil =>
            obtain ⟨rfl, -⟩ := List.cons_eq_cons.1 hcs
            exact absurd (hd.symm.trans hc) Bool.false_ne_true
          | cons e ds =>
            obtain ⟨rfl, rfl⟩ := List.cons_eq_cons.1 hcs
            exact ⟨ds, d, rest, rfl, (List.forall_mem_cons.1 hdigits).2, hle, hd⟩
    · simp only [if_neg hc, true_iff]
      exact ⟨[], c, cs, rfl, by simp, hvalue, by simpa using hc⟩

/-- Once there is a digit to read, only the digits can be wrong. -/
theorem error_of_readOnto {e : Error} (h : readOnto limit radix value cs = .error e) :
    e = .badDigit ∨ e = .tooLarge := by
  induction cs generalizing value with
  | nil => nomatch h
  | cons c cs ih =>
    rw [readOnto_cons] at h
    split at h
    · split at h
      · exact .inr (Except.error.inj h).symm
      · exact ih h
    · exact .inl (Except.error.inj h).symm

/-! ## What is told of them -/

theorem readDigits_eq_noDigits_iff : readDigits limit radix cs = .error .noDigits ↔ cs = [] := by
  cases cs with
  | nil => simp [readDigits]
  | cons c cs =>
    rw [readDigits]
    split
    · simp
    · refine iff_of_false (fun h => ?_) (List.cons_ne_nil c cs)
      simpa using error_of_readOnto h

theorem readDigits_eq_sign_iff : readDigits limit radix cs = .error .sign ↔
    ∃ c ∈ cs.head?, c = '+' ∨ c = '-' := by
  cases cs with
  | nil => simp [readDigits]
  | cons c cs =>
    rw [readDigits]
    by_cases hsign : c = '+' ∨ c = '-'
    · simp [hsign]
    · rw [if_neg (by simpa using hsign)]
      refine iff_of_false (fun h => ?_) (by simpa using hsign)
      simpa using error_of_readOnto h

/-- A sign is no digit. -/
theorem isDigit_of_sign {c : Char} (h : c = '+' ∨ c = '-') : radix.isDigit c = false := by
  rcases h with rfl | rfl <;> rfl

theorem readDigits_eq_tooLarge_iff : readDigits limit radix cs = .error .tooLarge ↔
    ∃ ds rest n, cs = ds ++ rest ∧ radix.Digits ds n ∧ limit < n := by
  have hread : readDigits limit radix cs = .error .tooLarge ↔
      readOnto limit radix 0 cs = .error .tooLarge := by
    cases cs with
    | nil => simp [readDigits, readOnto]
    | cons c cs =>
      rw [readDigits]
      by_cases hsign : c = '+' ∨ c = '-'
      · rw [if_pos (by simpa using hsign), readOnto_cons]
        simp [isDigit_of_sign hsign]
      · rw [if_neg (by simpa using hsign)]
  rw [hread, readOnto_eq_tooLarge_iff (Nat.zero_le limit)]
  simp only [Radix.digits_iff]
  constructor
  · rintro ⟨ds, rest, hcs, hdigits, hlimit⟩
    exact ⟨ds, rest, _, hcs, ⟨hdigits, rfl⟩, hlimit⟩
  · rintro ⟨ds, rest, n, hcs, ⟨hdigits, rfl⟩, hlimit⟩
    exact ⟨ds, rest, hcs, hdigits, hlimit⟩

theorem readDigits_eq_badDigit_iff : readDigits limit radix cs = .error .badDigit ↔
    ∃ ds c rest n, cs = ds ++ c :: rest ∧ radix.Digits ds n ∧ n ≤ limit ∧
      (∀ d, ¬ radix.HasDigit c d) ∧ (ds = [] → c ≠ '+' ∧ c ≠ '-') := by
  have hread : readDigits limit radix cs = .error .badDigit ↔
      readOnto limit radix 0 cs = .error .badDigit ∧ ∀ c ∈ cs.head?, c ≠ '+' ∧ c ≠ '-' := by
    cases cs with
    | nil => simp [readDigits, readOnto]
    | cons c cs =>
      rw [readDigits]
      by_cases hsign : c = '+' ∨ c = '-'
      · rw [if_pos (by simpa using hsign)]
        simpa [or_iff_not_imp_left] using fun _ => hsign
      · rw [if_neg (by simpa using hsign)]
        simpa using fun _ => not_or.1 hsign
  rw [hread, readOnto_eq_badDigit_iff (Nat.zero_le limit)]
  simp only [Radix.digits_iff, Radix.not_hasDigit_iff]
  constructor
  · rintro ⟨⟨ds, c, rest, rfl, hdigits, hlimit, hc⟩, hhead⟩
    refine ⟨ds, c, rest, _, rfl, ⟨hdigits, rfl⟩, hlimit, hc, ?_⟩
    rintro rfl
    exact hhead c rfl
  · rintro ⟨ds, c, rest, n, rfl, ⟨hdigits, rfl⟩, hlimit, hc, hsign⟩
    refine ⟨⟨ds, c, rest, rfl, hdigits, hlimit, hc⟩, fun d hd => ?_⟩
    cases ds with
    | nil =>
      obtain rfl := Option.some.inj hd
      exact hsign rfl
    | cons e ds =>
      -- the first character is a digit
      obtain rfl := Option.some.inj hd
      have he := hdigits e List.mem_cons_self
      exact not_or.1 fun h => absurd ((isDigit_of_sign h).symm.trans he) Bool.false_ne_true

end Digits

/-! ## Numerals -/

/-- Whether a text is a numeral for a number: an optional minus, the name of a base, and digits of
    the base for the magnitude of the number. -/
def Denotes (cs : List Char) (v : Int) : Prop :=
  ∃ (minus : Bool) (radix : Radix) (ds : List Char) (n : Nat),
    cs = (if minus then ['-'] else []) ++ radix.mark ++ ds ∧ ds ≠ [] ∧ radix.Digits ds n ∧
      v = if minus then -(n : Int) else n

/-- The text behind an optional minus. -/
def unsigned : List Char → List Char
  | '-' :: cs => cs
  | cs => cs

theorem spells_iff {cs : List Char} {n : Nat} : Spells cs n ↔
    ∃ (radix : Radix) (ds : List Char), cs = radix.mark ++ ds ∧ ds ≠ [] ∧ radix.Digits ds n := by
  simp only [Spells, Radix.digits_iff]

theorem writes_iff_denotes {cs : List Char} {v : Int} : Writes cs v ↔ Denotes cs v := by
  constructor
  · rintro (⟨n, hn, rfl⟩ | ⟨rest, n, rfl, hn, rfl⟩)
    · obtain ⟨radix, ds, rfl, hne, hdigits⟩ := spells_iff.1 hn
      exact ⟨false, radix, ds, n, rfl, hne, hdigits, rfl⟩
    · obtain ⟨radix, ds, rfl, hne, hdigits⟩ := spells_iff.1 hn
      exact ⟨true, radix, ds, n, rfl, hne, hdigits, rfl⟩
  · rintro ⟨minus, radix, ds, n, rfl, hne, hdigits, rfl⟩
    have hn : Spells (radix.mark ++ ds) n := spells_iff.2 ⟨radix, ds, rfl, hne, hdigits⟩
    cases minus with
    | false => exact .inl ⟨n, hn, rfl⟩
    | true => exact .inr ⟨_, n, rfl, hn, rfl⟩

/-- A minus does not change why a text is no numeral. -/
theorem ofChars_eq_error_iff {cs : List Char} {e : Error} :
    ofChars cs = .error e ↔ readMagnitude (unsigned cs) = .error e := by
  have hmap (f : Int → Int) (x : Except Error Nat) :
      Except.map f (x >>= fun n => pure (n : Int)) = .error e ↔ x = .error e := by
    cases x <;> simp [Except.map]
  unfold ofChars unsigned
  split <;> simp only [hmap]

/-- Behind the minus and the name of a base, the digits are read. -/
theorem parse_eq_error_iff {s : String} {e : Error} : parse s = .error e ↔
    ∃ (radix : Radix) (ds : List Char), radix.Names (unsigned s.toList) ds ∧
      readDigits limit radix ds = .error e := by
  rw [parse, ofChars_eq_error_iff, readMagnitude]
  simp only [← Radix.split_eq_iff]
  constructor
  · intro h
    exact ⟨_, _, rfl, h⟩
  · rintro ⟨radix, ds, hsplit, h⟩
    rwa [hsplit]

/-- **The grammar of numerals.** A text is read as a number exactly if it is a numeral for it with a
    magnitude of at most 31 bits, so that the negative of a magnitude can always be formed. Of any
    other text, what stands behind an optional minus and the optional name of a base decides: it
    begins with a sign, or there is nothing, or the digits at its front are too large, or a character
    behind them is no digit. -/
theorem parse_iff (s : String) :
    (∀ v, parse s = .ok v ↔ Denotes s.toList v ∧ v.natAbs ≤ 2 ^ 31 - 1) ∧
    (parse s = .error .sign ↔ ∃ (radix : Radix) (ds : List Char),
      radix.Names (unsigned s.toList) ds ∧ ∃ c ∈ ds.head?, c = '+' ∨ c = '-') ∧
    (parse s = .error .noDigits ↔ ∃ radix : Radix, radix.Names (unsigned s.toList) []) ∧
    (parse s = .error .tooLarge ↔ ∃ (radix : Radix) (ds rest : List Char) (n : Nat),
      radix.Names (unsigned s.toList) (ds ++ rest) ∧ radix.Digits ds n ∧ 2 ^ 31 - 1 < n) ∧
    (parse s = .error .badDigit ↔ ∃ (radix : Radix) (ds : List Char) (c : Char) (rest : List Char)
      (n : Nat), radix.Names (unsigned s.toList) (ds ++ c :: rest) ∧ radix.Digits ds n ∧
        n ≤ 2 ^ 31 - 1 ∧ (∀ d, ¬ radix.HasDigit c d) ∧ (ds = [] → c ≠ '+' ∧ c ≠ '-')) := by
  have hlimit : 2 ^ 31 - 1 = limit := rfl
  rw [hlimit]
  refine ⟨fun v => ?_, ?_, ?_, ?_, ?_⟩
  · rw [parse, ofChars_eq_ok_iff, writes_iff_denotes, InRange]
  · simp only [parse_eq_error_iff, readDigits_eq_sign_iff]
  · simp only [parse_eq_error_iff, readDigits_eq_noDigits_iff]
    constructor
    · rintro ⟨radix, ds, hds, rfl⟩
      exact ⟨radix, hds⟩
    · rintro ⟨radix, hds⟩
      exact ⟨radix, [], hds, rfl⟩
  · simp only [parse_eq_error_iff, readDigits_eq_tooLarge_iff]
    constructor
    · rintro ⟨radix, ds, hds, digits, rest, n, rfl, h⟩
      exact ⟨radix, digits, rest, n, hds, h⟩
    · rintro ⟨radix, digits, rest, n, hds, h⟩
      exact ⟨radix, _, hds, digits, rest, n, rfl, h⟩
  · simp only [parse_eq_error_iff, readDigits_eq_badDigit_iff]
    constructor
    · rintro ⟨radix, ds, hds, digits, c, rest, n, rfl, h⟩
      exact ⟨radix, digits, c, rest, n, hds, h⟩
    · rintro ⟨radix, digits, c, rest, n, hds, h⟩
      exact ⟨radix, _, hds, digits, c, rest, n, rfl, h⟩

end Numeral

end MacroAsm
