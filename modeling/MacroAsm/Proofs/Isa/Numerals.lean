import MacroAsm.Numeral
import MacroAsm.Proofs.Text.Ascii

set_option autoImplicit false

/-! # Numerals that are written

Numbers are written in decimal. Their digits are read back as the same number, up to the limit of
the reader, and a text that begins with a letter is never read as a number. -/

namespace MacroAsm.Numeral

/-! ## Digits -/

theorem digitValue?_of_isDigit {c : Char} (h : c.isDigit = true) :
    digitValue? c = some (c.toNat - 48) := by
  obtain ⟨hlow, hhigh⟩ := Text.isDigit_iff.1 h
  have hzero : '0' ≤ c := hlow
  have hnine : c ≤ '9' := hhigh
  simp [digitValue?, hzero, hnine]

/-- More digits never make a number smaller. -/
theorem le_ofDigitChars (cs : List Char) (value : Nat) : value ≤ Nat.ofDigitChars 10 cs value := by
  induction cs generalizing value with
  | nil => exact Nat.le_of_eq Nat.ofDigitChars_nil.symm
  | cons c cs ih =>
    rw [Nat.ofDigitChars_cons]
    have h := ih (10 * value + (c.toNat - '0'.toNat))
    omega

/-- Decimal digits are read as the number that they write. -/
theorem readOnto_of_isDigit {limit value : Nat} {cs : List Char}
    (hdigits : ∀ c ∈ cs, c.isDigit = true) (hle : Nat.ofDigitChars 10 cs value ≤ limit) :
    readOnto limit .decimal value cs = .ok (Nat.ofDigitChars 10 cs value) := by
  induction cs generalizing value with
  | nil => rw [readOnto, Nat.ofDigitChars_nil]
  | cons c cs ih =>
    have hc := hdigits c List.mem_cons_self
    have hrange := Text.isDigit_iff.1 hc
    have hvalue : 10 * value + (c.toNat - '0'.toNat) = value * 10 + (c.toNat - 48) := by
      rw [Nat.mul_comm]
      rfl
    rw [Nat.ofDigitChars_cons, hvalue] at hle ⊢
    -- the limit is checked at each digit, and no number in between is above the last one
    have hnext := Nat.le_trans (le_ofDigitChars cs _) hle
    have hbase : Radix.decimal.base = 10 := rfl
    rw [readOnto, digitValue?_of_isDigit hc, hbase]
    dsimp only
    rw [if_neg (by omega), if_neg (by omega)]
    exact ih (fun d hd => hdigits d (List.mem_cons_of_mem c hd)) hle

theorem isDigit_of_mem_toDigits {n : Nat} {c : Char} (hc : c ∈ Nat.toDigits 10 n) :
    c.isDigit = true :=
  Nat.isDigit_of_mem_toDigits (by omega) (by omega) hc

/-- The digits of a number are read as that number, if it is within the limit. -/
theorem readDigits_toDigits {limit n : Nat} (h : n ≤ limit) :
    readDigits limit .decimal (Nat.toDigits 10 n) = .ok n := by
  have hread : readOnto limit .decimal 0 (Nat.toDigits 10 n) = .ok n := by
    rw [readOnto_of_isDigit fun c hc => isDigit_of_mem_toDigits hc]
    · rw [Nat.ofDigitChars_ten_toDigits]
    · rwa [Nat.ofDigitChars_ten_toDigits]
  cases hcs : Nat.toDigits 10 n with
  | nil => exact absurd hcs Nat.toDigits_ne_nil
  | cons c cs =>
    have hc : c.isDigit = true := isDigit_of_mem_toDigits (n := n) (by simp [hcs])
    have hplus : c ≠ '+' := by
      rintro rfl
      exact absurd hc (by decide)
    have hminus : c ≠ '-' := by
      rintro rfl
      exact absurd hc (by decide)
    rw [readDigits, if_neg (by simp [hplus, hminus]), ← hcs]
    exact hread

/-! ## Whole numerals -/

/-- A text of decimal digits names no base. -/
theorem split_of_isDigit {cs : List Char} (h : ∀ c ∈ cs, c.isDigit = true) :
    Radix.split cs = (.decimal, cs) := by
  unfold Radix.split
  split
  · exact absurd (h 'b' (by simp)) (by decide)
  · exact absurd (h 'o' (by simp)) (by decide)
  · exact absurd (h 'x' (by simp)) (by decide)
  · rfl

theorem readMagnitude_toDigits {n : Nat} (h : n ≤ limit) :
    readMagnitude (Nat.toDigits 10 n) = .ok n := by
  rw [readMagnitude, split_of_isDigit fun c hc => isDigit_of_mem_toDigits hc]
  exact readDigits_toDigits h

theorem digitValue?_of_readOnto {limit value n : Nat} {radix : Radix} {cs : List Char}
    (h : readOnto limit radix value cs = .ok n) {c : Char} (hc : c ∈ cs) :
    (digitValue? c).isSome = true := by
  induction cs generalizing value with
  | nil => simp at hc
  | cons d cs ih =>
    rw [readOnto] at h
    split at h
    · simp at h
    · next v hv =>
      split at h
      · simp at h
      · split at h
        · simp at h
        · rcases List.mem_cons.1 hc with rfl | hc
          · simp [hv]
          · exact ih h hc

/-- A numeral consists of digits, at most one minus and the letter of a base. -/
theorem char_of_readMagnitude {cs : List Char} {n : Nat} (h : readMagnitude cs = .ok n) {c : Char}
    (hc : c ∈ cs) : (digitValue? c).isSome = true ∨ c = 'o' ∨ c = 'x' := by
  have hdigits : ∀ ds, readDigits limit (Radix.split cs).1 ds = .ok n → c ∈ ds →
      (digitValue? c).isSome = true := by
    intro ds hds hmem
    cases ds with
    | nil => simp at hmem
    | cons d ds =>
      rw [readDigits] at hds
      split at hds
      · simp at hds
      · exact digitValue?_of_readOnto hds hmem
  have htail := hdigits _ h
  -- in front of the digits stands the name of a base, whose `0` and `b` are digits themselves
  unfold Radix.split at htail
  split at htail
  · rcases List.mem_cons.1 hc with rfl | hc
    · exact .inl (by decide)
    · rcases List.mem_cons.1 hc with rfl | hc
      · exact .inl (by decide)
      · exact .inl (htail hc)
  · rcases List.mem_cons.1 hc with rfl | hc
    · exact .inl (by decide)
    · rcases List.mem_cons.1 hc with rfl | hc
      · exact .inr (.inl rfl)
      · exact .inl (htail hc)
  · rcases List.mem_cons.1 hc with rfl | hc
    · exact .inl (by decide)
    · rcases List.mem_cons.1 hc with rfl | hc
      · exact .inr (.inr rfl)
      · exact .inl (htail hc)
  · exact .inl (htail hc)

/-- A numeral is a magnitude, or a minus in front of one. -/
theorem exists_of_ofChars {cs : List Char} {n : Int} (h : ofChars cs = .ok n) :
    ∃ ds m, readMagnitude ds = .ok m ∧ (cs = '-' :: ds ∧ n = -(m : Int) ∨ cs = ds ∧ n = m) := by
  unfold ofChars at h
  split at h
  · next ds =>
    cases hm : readMagnitude ds with
    | error e => simp [hm, Functor.map, Except.map] at h
    | ok m =>
      rw [hm] at h
      exact ⟨ds, m, hm, .inl ⟨rfl, (Except.ok.inj h).symm⟩⟩
  · cases hm : readMagnitude cs with
    | error e => simp [hm, Functor.map, Except.map] at h
    | ok m =>
      rw [hm] at h
      exact ⟨cs, m, hm, .inr ⟨rfl, (Except.ok.inj h).symm⟩⟩

theorem star_notMem_of_ofChars {cs : List Char} {n : Int} (h : ofChars cs = .ok n) : '*' ∉ cs := by
  obtain ⟨ds, m, hm, hcs⟩ := exists_of_ofChars h
  have hstar : '*' ∉ ds := by
    intro hmem
    rcases char_of_readMagnitude hm hmem with h | h | h
    · exact absurd h (by decide)
    · exact absurd h (by decide)
    · exact absurd h (by decide)
  rcases hcs with ⟨rfl, -⟩ | ⟨rfl, -⟩
  · simpa using hstar
  · exact hstar

/-- What numerals can stand for: magnitudes of 31 bits with a sign. -/
def InRange (n : Int) : Prop :=
  n.natAbs ≤ limit

theorem inRange_of_ofChars {cs : List Char} {n : Int} (h : ofChars cs = .ok n) : InRange n := by
  obtain ⟨ds, m, hm, hcs⟩ := exists_of_ofChars h
  have hle : m ≤ limit := le_of_readDigits_eq_ok hm
  unfold InRange
  rcases hcs with ⟨-, rfl⟩ | ⟨-, rfl⟩
  · rwa [Int.natAbs_neg, Int.natAbs_natCast]
  · rwa [Int.natAbs_natCast]

/-- A written number is read as that number. -/
theorem ofChars_toString {n : Int} (h : InRange n) : ofChars (toString n).toList = .ok n := by
  unfold InRange at h
  cases n with
  | ofNat m =>
    have htext : (toString (Int.ofNat m)).toList = Nat.toDigits 10 m := Nat.toList_repr
    have hread := readMagnitude_toDigits (n := m) h
    rw [htext]
    unfold ofChars
    split
    · next cs heq =>
      have hminus := isDigit_of_mem_toDigits (n := m) (c := '-') (by simp [heq])
      exact absurd hminus (by decide)
    · rw [hread]
      rfl
  | negSucc m =>
    have htext : (toString (Int.negSucc m)).toList = '-' :: Nat.toDigits 10 (m + 1) := by
      show ("-" ++ (m + 1).repr).toList = _
      rw [String.toList_append, Nat.toList_repr]
      rfl
    have hread := readMagnitude_toDigits (n := m + 1) h
    rw [htext, ofChars, hread]
    rfl

/-- Letters are no decimal digits. -/
theorem le_of_digitValue? {c : Char} {d : Nat} (hc : c.isDigit = false)
    (hd : digitValue? c = some d) : 10 ≤ d := by
  unfold digitValue? at hd
  split at hd
  · next h =>
    simp only [Bool.and_eq_true, decide_eq_true_eq] at h
    have hdigit : c.isDigit = true := Text.isDigit_iff.2 h
    rw [hc] at hdigit
    exact absurd hdigit Bool.false_ne_true
  · split at hd
    · obtain rfl := Option.some.inj hd
      omega
    · split at hd
      · obtain rfl := Option.some.inj hd
        omega
      · simp at hd

/-- A text that begins with neither a digit nor a minus is no numeral. -/
theorem exists_error_of_head {c : Char} (cs : List Char) (hdigit : c.isDigit = false)
    (hminus : c ≠ '-') : ∃ e, ofChars (c :: cs) = .error e := by
  have hzero : c ≠ '0' := by
    rintro rfl
    exact absurd hdigit (by decide)
  have hsplit : Radix.split (c :: cs) = (.decimal, c :: cs) := by
    unfold Radix.split
    split
    · next h => exact absurd (List.head_eq_of_cons_eq h) hzero
    · next h => exact absurd (List.head_eq_of_cons_eq h) hzero
    · next h => exact absurd (List.head_eq_of_cons_eq h) hzero
    · rfl
  have hdigits : ∃ e, readDigits limit .decimal (c :: cs) = .error e := by
    rw [readDigits]
    split
    · exact ⟨_, rfl⟩
    · rw [readOnto]
      split
      · exact ⟨_, rfl⟩
      · next d hd => exact ⟨_, if_pos (le_of_digitValue? hdigit hd)⟩
  obtain ⟨e, he⟩ := hdigits
  refine ⟨e, ?_⟩
  unfold ofChars
  split
  · next heq => exact absurd (List.head_eq_of_cons_eq heq) hminus
  · rw [readMagnitude, hsplit, he]
    rfl

end MacroAsm.Numeral
