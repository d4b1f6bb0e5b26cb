import MacroAsm.Macros.Placeholder
import MacroAsm.Proofs.Isa.Magnitudes
import MacroAsm.Proofs.Text.Cuts

set_option autoImplicit false

/-! # Filled placeholders

A line of a macro is cut at its leftmost longest placeholders (`Placeholder.CutAtPlaceholders`), each
of which is replaced by what it stands for. The line cannot be filled exactly if a placeholder asks
for an operand that the use does not have (`Placeholder.OutOfRange`), and then the last such
placeholder is reported (`Placeholder.fill_in_one_pass`). Operands are inserted and not looked at
again. -/

namespace MacroAsm.Placeholder

/-! ## The cut of a line -/

/-- A placeholder as it is written. -/
def written : Placeholder → List Char
  | .uid => ['%', 'u', 'i', 'd']
  | .argument digits => '%' :: digits

theorem eq_written_append {cs rest : List Char} {p : Placeholder} (h : read? cs = some (p, rest)) :
    '%' :: cs = p.written ++ rest := by
  unfold read? at h
  split at h
  · cases h
    rfl
  · split at h
    · next hread =>
      cases h
      rw [Text.eq_append_of_readRun? hread]
      rfl
    · cases h

theorem eq_tail_append {cs rest : List Char} {p : Placeholder} (h : read? cs = some (p, rest)) :
    cs = p.written.tail ++ rest := by
  have heq := eq_written_append h
  cases p <;> exact List.tail_eq_of_cons_eq heq

/-- A line is cut at its placeholders, from the left and each as long as it can be: a placeholder is
    a mark with `uid` or with digits behind it, no literal stretch behind digits goes on with them, and
    no literal stretch holds a placeholder of its own. -/
structure CutAtPlaceholders (cs : List Char) (cut : Text.Cut Placeholder) : Prop where
  fill_eq : cut.fill written = cs
  digits : ∀ p ∈ cut.rest, ∀ ds, p.1 = .argument ds → ds ≠ [] ∧ ∀ d ∈ ds, d.isDigit = true
  longest : ∀ p ∈ cut.rest, ∀ ds, p.1 = .argument ds → ∀ c ∈ p.2.head?, c.isDigit = false
  leftmost : ∀ literal ∈ cut.lead :: cut.rest.map Prod.snd, ∀ a b, literal = a ++ '%' :: b →
    ¬ ['u', 'i', 'd'] <+: b ∧ ∀ c ∈ b.head?, c.isDigit = false

theorem read?_eq_argument_iff {cs rest ds : List Char} :
    read? cs = some (.argument ds, rest) ↔ Text.readRun? Char.isDigit cs = some (ds, rest) := by
  unfold read?
  split
  · next cs =>
    have hnone : Text.readRun? Char.isDigit ('u' :: 'i' :: 'd' :: cs) = none :=
      Text.readRun?_eq_none_iff.2 (by simp)
    simp [hnone]
  · split
    · next hread => simp [hread]
    · next hread => simp [hread]

theorem read?_eq_none_iff {cs : List Char} :
    read? cs = none ↔ ¬ ['u', 'i', 'd'] <+: cs ∧ ∀ c ∈ cs.head?, c.isDigit = false := by
  rw [← Text.readRun?_eq_none_iff]
  unfold read?
  split
  · next rest => simp
  · next huid =>
    have hprefix : ¬ ['u', 'i', 'd'] <+: cs := by
      rintro ⟨rest, rfl⟩
      exact huid rest rfl
    split
    · next hread => simp [hread]
    · next hread => simp [hread, hprefix]

/-- A placeholder is read where it stands if it is as long as it can be. -/
theorem read?_written_iff {p : Placeholder} {literal : List Char} :
    read? (p.written.tail ++ literal) = some (p, literal) ↔ ∀ ds, p = .argument ds →
      (ds ≠ [] ∧ ∀ d ∈ ds, d.isDigit = true) ∧ ∀ c ∈ literal.head?, c.isDigit = false := by
  cases p with
  | uid => exact iff_of_true rfl (by simp)
  | argument ds =>
    show read? (ds ++ literal) = some (.argument ds, literal) ↔ _
    rw [read?_eq_argument_iff, Text.readRun?_eq_some_iff]
    simp [and_assoc]

/-- The placeholders of a line are what is read from the left. -/
theorem cutAtPlaceholders_iff {cs : List Char} {cut' : Text.Cut Placeholder} :
    CutAtPlaceholders cs cut' ↔ cut'.FromLeft '%' read? (fun p => p.written.tail) cs := by
  have hwritten : (fun p : Placeholder => '%' :: p.written.tail) = written := by
    funext p
    cases p <;> rfl
  constructor
  · rintro ⟨hfill, hdigits, hlongest, hleftmost⟩
    refine ⟨hwritten ▸ hfill, fun p hp => ?_, fun l hl a b heq => ?_⟩
    · exact read?_written_iff.2 fun ds hds => ⟨hdigits p hp ds hds, hlongest p hp ds hds⟩
    · exact read?_eq_none_iff.2 (hleftmost l hl a b heq)
  · rintro ⟨hfill, htoken, hliteral⟩
    refine ⟨hwritten ▸ hfill, fun p hp ds hds => ?_, fun p hp ds hds => ?_, fun l hl a b heq => ?_⟩
    · exact (read?_written_iff.1 (htoken p hp) ds hds).1
    · exact (read?_written_iff.1 (htoken p hp) ds hds).2
    · exact read?_eq_none_iff.1 (hliteral l hl a b heq)

/-- A line is cut at its placeholders in one way. -/
theorem cutAtPlaceholders_iff_eq_cut {line : String} {cut' : Text.Cut Placeholder} :
    CutAtPlaceholders line.toList cut' ↔ cut' = cut line := by
  rw [cutAtPlaceholders_iff]
  refine Text.Cut.fromLeft_iff eq_tail_append fun {cs token rest} hread hmark => ?_
  cases token with
  | uid => exact absurd hmark (by decide)
  | argument ds =>
    have hdigits := Text.forall_of_readRun? (read?_eq_argument_iff.1 hread)
    exact absurd (hdigits '%' hmark) (by decide)

/-! ## What is asked for -/

/-- The number that decimal digits write. -/
def number (digits : List Char) : Nat :=
  Nat.ofDigitChars 10 digits 0

/-- Whether digits ask for an operand that is not there: operands are counted from one, there may be
    fewer of them, and no number of an operand goes beyond 64 bits. -/
def OutOfRange (args : List String) (digits : List Char) : Prop :=
  number digits = 0 ∨ args.length < number digits ∨ UInt64.size ≤ number digits

/-- What a placeholder in range becomes: the number of the expansion in decimal, or an operand. -/
def replacement (args : List String) (uid : Nat) : Placeholder → List Char
  | .uid => Nat.toDigits 10 uid
  | .argument digits => (args.getD (number digits - 1) "").toList

/-- The last placeholder that asks for an operand that is not there has these digits. -/
def LastOutOfRange (args : List String) (tokens : List Placeholder) (digits : List Char) : Prop :=
  ∃ before behind, tokens = before ++ .argument digits :: behind ∧ OutOfRange args digits ∧
    ∀ ds, .argument ds ∈ behind → ¬ OutOfRange args ds

section Digits

variable {args : List String} {digits : List Char}

/-- Decimal digits write the number that is added up from the left. -/
theorem valueOnto_decimal (hdigits : ∀ d ∈ digits, d.isDigit = true) (value : Nat) :
    Radix.decimal.valueOnto value digits = Nat.ofDigitChars 10 digits value := by
  induction digits generalizing value with
  | nil => rw [Nat.ofDigitChars_nil, Radix.valueOnto, List.foldl_nil]
  | cons d ds ih =>
    obtain ⟨hd, hds⟩ := List.forall_mem_cons.1 hdigits
    have hstep : Radix.decimal.valueOnto value (d :: ds) =
        Radix.decimal.valueOnto (value * 10 + (d.toNat - 48)) ds := by
      simp [Radix.valueOnto, Numeral.digitValue?_of_isDigit hd, Radix.base]
    have hzero : '0'.toNat = 48 := rfl
    rw [hstep, ih hds, Nat.ofDigitChars_cons, hzero, Nat.mul_comm]

/-- Digits are read as their number, up to the limit. -/
theorem readDigits_eq_ok_iff (hne : digits ≠ []) (hdigits : ∀ d ∈ digits, d.isDigit = true)
    {limit n : Nat} :
    Numeral.readDigits limit .decimal digits = .ok n ↔ number digits = n ∧ n ≤ limit := by
  have hdecimal : ∀ d ∈ digits, Radix.decimal.isDigit d = true :=
    fun d hd => Radix.isDigit_decimal d ▸ hdigits d hd
  rw [Numeral.readDigits_eq_ok_iff, valueOnto_decimal hdigits, number]
  exact ⟨fun h => h.2.2, fun h => ⟨hne, hdecimal, h⟩⟩

/-- Digits stand for the operand of their number, counted from one. -/
theorem argument?_eq (hne : digits ≠ []) (hdigits : ∀ d ∈ digits, d.isDigit = true) :
    argument? args digits = if number digits = 0 then none else args[number digits - 1]? := by
  have hread {n : Nat} : Numeral.readDigits args.length .decimal digits = .ok n ↔
      number digits = n ∧ n ≤ args.length := readDigits_eq_ok_iff hne hdigits
  unfold argument?
  by_cases hlimit : number digits ≤ args.length
  · rw [hread.2 ⟨rfl, hlimit⟩]
    cases number digits <;> rfl
  · -- a number above the count of operands is not read, and there is no such operand
    cases hnone : Numeral.readDigits args.length .decimal digits with
    | ok n =>
      obtain ⟨rfl, hle⟩ := hread.1 hnone
      exact absurd hle hlimit
    | error e => rw [if_neg (by omega), List.getElem?_eq_none (by omega)]

/-- Digits in range stand for an operand, and others for none. -/
theorem argument?_eq_none_iff (hargs : args.length < UInt64.size) (hne : digits ≠ [])
    (hdigits : ∀ d ∈ digits, d.isDigit = true) :
    argument? args digits = none ↔ OutOfRange args digits := by
  rw [argument?_eq hne hdigits]
  unfold OutOfRange
  split
  · next hzero => simp [hzero]
  · next hzero =>
    rw [List.getElem?_eq_none_iff]
    omega

end Digits

/-! ## Placeholders that are missing -/

section Missing

variable {args : List String} {uid : Nat} {p : Placeholder}

/-- Missing is what asks for an operand that is not there. -/
theorem missing?_eq_some_iff (hargs : args.length < UInt64.size)
    (hp : ∀ ds, p = .argument ds → ds ≠ [] ∧ ∀ d ∈ ds, d.isDigit = true) {digits : List Char} :
    missing? args p = some digits ↔ p = .argument digits ∧ OutOfRange args digits := by
  cases p with
  | uid => simp [missing?]
  | argument ds =>
    obtain ⟨hne, hdigits⟩ := hp ds rfl
    have hnone := argument?_eq_none_iff hargs hne hdigits
    rw [missing?, Placeholder.argument.injEq]
    cases hvalue : argument? args ds with
    | none =>
      simp only [Option.isSome_none, Bool.false_eq_true, if_false, Option.some.injEq]
      constructor
      · rintro rfl
        exact ⟨rfl, hnone.1 hvalue⟩
      · exact fun h => h.1
    | some a =>
      simp only [Option.isSome_some, if_true, reduceCtorEq, false_iff]
      rintro ⟨rfl, hout⟩
      exact absurd (hnone.2 hout) (by simp [hvalue])

theorem missing?_eq_none_iff (hargs : args.length < UInt64.size)
    (hp : ∀ ds, p = .argument ds → ds ≠ [] ∧ ∀ d ∈ ds, d.isDigit = true) :
    missing? args p = none ↔ ∀ ds, p = .argument ds → ¬ OutOfRange args ds := by
  rw [Option.eq_none_iff_forall_ne_some]
  simp only [ne_eq, missing?_eq_some_iff hargs hp, not_and]

/-- Other placeholders are filled with what they stand for. -/
theorem toList_value? (hp : ∀ ds, p = .argument ds → ds ≠ [] ∧ ∀ d ∈ ds, d.isDigit = true)
    (hrange : ∀ ds, p = .argument ds → ¬ OutOfRange args ds) :
    ((value? args uid p).getD "").toList = replacement args uid p := by
  cases p with
  | uid =>
    show (toString uid).toList = Nat.toDigits 10 uid
    exact Nat.toList_repr
  | argument ds =>
    obtain ⟨hne, hdigits⟩ := hp ds rfl
    have hzero : number ds ≠ 0 := fun h => hrange ds rfl (.inl h)
    rw [value?, argument?_eq hne hdigits, if_neg hzero, replacement, List.getD_eq_getElem?_getD]

end Missing

/-! ## Filling a line -/

section Fill

variable {line : String} {args : List String} {uid : Nat}

theorem fill_eq_error_iff {e : PlaceholderError} : fill line args uid = .error e ↔
    ∃ digits, ((cut line).tokens.filterMap (missing? args)).getLast? = some digits ∧
      e = ⟨digits, args.length⟩ := by
  unfold fill
  dsimp only
  cases ((cut line).tokens.filterMap (missing? args)).getLast? <;> simp [eq_comm]

/-- A line is filled if none of its placeholders is missing. -/
theorem fill_eq_ok_iff {s : String} : fill line args uid = .ok s ↔
    (∀ p ∈ (cut line).tokens, missing? args p = none) ∧
      s = (cut line).fillText fun p => (value? args uid p).getD "" := by
  rw [← List.filterMap_eq_nil_iff, ← List.getLast?_eq_none_iff]
  unfold fill
  dsimp only
  cases ((cut line).tokens.filterMap (missing? args)).getLast? <;> simp [eq_comm]

/-- The last element that is kept, with only such behind it as are not. -/
theorem getLast?_filterMap_eq_some_iff {α β : Type} {f : α → Option β} {l : List α} {b : β} :
    (l.filterMap f).getLast? = some b ↔
      ∃ before a behind, l = before ++ a :: behind ∧ f a = some b ∧ ∀ x ∈ behind, f x = none := by
  rw [List.getLast?_eq_head?_reverse, ← List.filterMap_reverse, List.head?_filterMap,
    List.findSome?_eq_some_iff]
  constructor
  · rintro ⟨behind, a, before, hl, ha, hbehind⟩
    refine ⟨before.reverse, a, behind.reverse, ?_, ha, by simpa using hbehind⟩
    rw [← List.reverse_reverse l, hl]
    simp
  · rintro ⟨before, a, behind, rfl, ha, hbehind⟩
    exact ⟨behind.reverse, a, before.reverse, by simp, ha, by simpa using hbehind⟩

/-- The placeholders of a line that ask for an operand do so with digits. -/
theorem digits_of_mem_tokens {ds : List Char} (h : .argument ds ∈ (cut line).tokens) :
    ds ≠ [] ∧ ∀ d ∈ ds, d.isDigit = true := by
  obtain ⟨p, hp, heq⟩ := List.mem_map.1 h
  exact (cutAtPlaceholders_iff_eq_cut.2 rfl).digits p hp ds heq

/-- The last placeholder that cannot be filled is reported. -/
theorem fill_eq_error_iff_last (hargs : args.length < UInt64.size) {e : PlaceholderError} :
    fill line args uid = .error e ↔
      ∃ digits, LastOutOfRange args (cut line).tokens digits ∧ e = ⟨digits, args.length⟩ := by
  have hmissing {p} (hp : p ∈ (cut line).tokens) {digits : List Char} :
      missing? args p = some digits ↔ p = .argument digits ∧ OutOfRange args digits :=
    missing?_eq_some_iff hargs fun ds hds => digits_of_mem_tokens (hds ▸ hp)
  have hnone {p} (hp : p ∈ (cut line).tokens) :
      missing? args p = none ↔ ∀ ds, p = .argument ds → ¬ OutOfRange args ds :=
    missing?_eq_none_iff hargs fun ds hds => digits_of_mem_tokens (hds ▸ hp)
  rw [fill_eq_error_iff]
  refine exists_congr fun digits => and_congr_left fun _ => ?_
  rw [getLast?_filterMap_eq_some_iff]
  constructor
  · rintro ⟨before, p, behind, htokens, hp, hbehind⟩
    obtain ⟨rfl, hout⟩ := (hmissing (by simp [htokens])).1 hp
    exact ⟨before, behind, htokens, hout,
      fun ds hds => (hnone (by simp [htokens, hds])).1 (hbehind _ hds) ds rfl⟩
  · rintro ⟨before, behind, htokens, hout, hbehind⟩
    refine ⟨before, _, behind, htokens, (hmissing (by simp [htokens])).2 ⟨rfl, hout⟩, ?_⟩
    rintro p hp
    refine (hnone (by simp [htokens, hp])).2 ?_
    rintro ds rfl
    exact hbehind ds hp

/-- A line whose placeholders are all in range is filled with what they stand for. -/
theorem fill_eq_ok_iff_replaced (hargs : args.length < UInt64.size) {s : String} :
    fill line args uid = .ok s ↔
      (∀ digits, .argument digits ∈ (cut line).tokens → ¬ OutOfRange args digits) ∧
        s.toList = (cut line).fill (replacement args uid) := by
  have hnone : (∀ p ∈ (cut line).tokens, missing? args p = none) ↔
      ∀ digits, .argument digits ∈ (cut line).tokens → ¬ OutOfRange args digits := by
    constructor
    · intro h digits hmem
      exact (missing?_eq_none_iff hargs fun ds hds => digits_of_mem_tokens (hds ▸ hmem)).1
        (h _ hmem) digits rfl
    · intro h p hp
      refine (missing?_eq_none_iff hargs fun ds hds => digits_of_mem_tokens (hds ▸ hp)).2 ?_
      rintro ds rfl
      exact h ds hp
  rw [fill_eq_ok_iff, hnone]
  refine and_congr_right fun hrange => ?_
  rw [← String.toList_inj, Text.Cut.toList_fillText, Text.Cut.fill_congr fun p hp => ?_]
  refine toList_value? (fun ds hds => digits_of_mem_tokens (hds ▸ hp)) ?_
  rintro ds rfl
  exact hrange ds hp

/-- **Substitution is a single pass.** A line is cut at its leftmost longest placeholders, in one way
    only. It cannot be filled exactly if one of them asks for an operand that is not there, and then
    the last such one is named. Otherwise the result is the first literal stretch, then what each
    placeholder stands for with the stretch behind it as it is, so that what an operand looks like
    does not matter. A use has fewer operands than 64 bits can count. -/
theorem fill_in_one_pass (line : String) (args : List String) (uid : Nat)
    (hargs : args.length < UInt64.size) :
    ∃ places, CutAtPlaceholders line.toList places ∧
      (∀ places', CutAtPlaceholders line.toList places' → places' = places) ∧
      ((∃ e, fill line args uid = .error e) ↔
        ∃ digits, .argument digits ∈ places.tokens ∧ OutOfRange args digits) ∧
      (∀ e, fill line args uid = .error e ↔
        ∃ digits, LastOutOfRange args places.tokens digits ∧ e = ⟨digits, args.length⟩ ∧
          e.message = "Macro argument `%" ++ String.ofList digits ++
            "` is out of range, the macro takes " ++ toString args.length ++ " argument(s)") ∧
      ∀ s, fill line args uid = .ok s ↔
        (∀ digits, .argument digits ∈ places.tokens → ¬ OutOfRange args digits) ∧
          s.toList = places.fill (replacement args uid) := by
  refine ⟨cut line, cutAtPlaceholders_iff_eq_cut.2 rfl, fun _ => cutAtPlaceholders_iff_eq_cut.1, ?_,
    fun e => ?_, fun s => fill_eq_ok_iff_replaced hargs⟩
  · constructor
    · rintro ⟨e, he⟩
      obtain ⟨digits, ⟨before, behind, htokens, hout, -⟩, -⟩ := (fill_eq_error_iff_last hargs).1 he
      exact ⟨digits, by simp [htokens], hout⟩
    · rintro ⟨digits, hmem, hout⟩
      cases hfill : fill line args uid with
      | error e => exact ⟨e, rfl⟩
      | ok s => exact absurd hout (((fill_eq_ok_iff_replaced hargs).1 hfill).1 digits hmem)
  · rw [fill_eq_error_iff_last hargs]
    refine exists_congr fun digits => and_congr_right fun _ => ?_
    exact ⟨fun h => ⟨h, h ▸ rfl⟩, fun h => h.1⟩

/-- Operands that look like placeholders stay as they are, and zeros in front do not count. -/
theorem fill_in_one_pass_nested :
    ["%2", "x"].length < UInt64.size ∧ fill "%1%02%%uidx" ["%2", "x"] 7 = .ok "%2x%7x" ∧
      ∃ places, CutAtPlaceholders "%1%02%%uidx".toList places ∧
        places.tokens = [.argument ['1'], .argument ['0', '2'], .uid] ∧
        "%2x%7x".toList = places.fill (replacement ["%2", "x"] 7) := by
  have hargs : ["%2", "x"].length < UInt64.size := by decide
  have hfill : fill "%1%02%%uidx" ["%2", "x"] 7 = .ok "%2x%7x" := by rfl
  obtain ⟨places, hcut, -, -, -, hok⟩ := fill_in_one_pass "%1%02%%uidx" ["%2", "x"] 7 hargs
  refine ⟨hargs, hfill, places, hcut, ?_, ((hok _).1 hfill).2⟩
  rw [cutAtPlaceholders_iff_eq_cut.1 hcut]
  decide

/-- Of the placeholders out of range the last one is named. -/
example : fill "%1 %0 %99 %2" ["a", "b"] 1 = .error ⟨['9', '9'], 2⟩ := by rfl

end Fill

end MacroAsm.Placeholder
