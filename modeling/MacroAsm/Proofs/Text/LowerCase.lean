import MacroAsm.Proofs.Text.Ascii
import MacroAsm.Text.Case

set_option autoImplicit false

/-! # Texts in lower case

The lower-case form of a text holds no capital letter of ASCII (`lowered_lower`), and what holds none
and is written in ASCII is its own lower-case form (`lower_eq_self`). The first is a property of the
table of letter case: from outside of ASCII no run of it leads to a capital letter. -/

namespace MacroAsm.Text

/-- No capital letter of ASCII. -/
def Lowered (cs : List Char) : Prop :=
  ∀ c ∈ cs, c.isUpper = false

instance (cs : List Char) : Decidable (Lowered cs) :=
  List.decidableBAll _ cs

theorem Lowered.cons {c : Char} {cs : List Char} (hc : c.isUpper = false) (hcs : Lowered cs) :
    Lowered (c :: cs) := by
  intro d hd
  rcases List.mem_cons.1 hd with rfl | hd
  · exact hc
  · exact hcs d hd

/-- No run that goes beyond ASCII leads to a capital letter. -/
theorem lt_first_add_shift :
    ∀ r ∈ lowerRuns, 0x80 ≤ r.last → 90 < (r.first : Int) + r.shift := by
  decide +kernel

/-- What is not moved stays, and what is moved is moved by the run that holds it. -/
theorem lowerShift_eq (rs : List LowerRun) (n : Nat) :
    lowerShift rs n = 0 ∨ ∃ r ∈ rs, r.first ≤ n ∧ n ≤ r.last ∧ lowerShift rs n = r.shift := by
  induction rs with
  | nil => exact .inl rfl
  | cons r rs ih =>
    unfold lowerShift
    split
    · exact .inl rfl
    · next hfirst =>
      split
      · next hlast =>
        split
        · exact .inr ⟨r, List.mem_cons_self, by omega, hlast, rfl⟩
        · exact .inl rfl
      · rcases ih with h | ⟨q, hq, h⟩
        · exact .inl h
        · exact .inr ⟨q, List.mem_cons_of_mem r hq, h⟩

theorem isUpper_ofNat {n : Nat} (h : 90 < n) : (Char.ofNat n).isUpper = false := by
  rw [Bool.eq_false_iff, Ne, isUpper_iff]
  by_cases hv : n.isValidChar
  · have hn : (Char.ofNat n).toNat = n := by
      rw [Char.ofNat, dif_pos hv]
      rfl
    omega
  · have hzero : (Char.ofNat n).toNat = 0 := by
      rw [Char.ofNat, dif_neg hv]
      rfl
    omega

theorem toLower_eq_self {c : Char} (h : c.isUpper = false) : c.toLower = c := by
  unfold Char.toLower
  refine dif_neg fun hr => ?_
  rw [Bool.eq_false_iff, Ne, isUpper_iff, ← Char.toNat_val] at h
  exact h hr

/-- The lower-case form of a capital letter lies behind all capital letters. -/
theorem isUpper_toLower (c : Char) : c.toLower.isUpper = false := by
  cases hc : c.isUpper with
  | false => rwa [toLower_eq_self hc]
  | true =>
    obtain ⟨hlow, hhigh⟩ := isUpper_iff.1 hc
    have hall : ∀ n < 91, 65 ≤ n → (Char.ofNat n).toLower.isUpper = false := by decide +kernel
    have h := hall c.toNat (by omega) hlow
    rwa [Char.ofNat_toNat] at h

theorem lowered_lowerChar (c : Char) : Lowered (lowerChar c) := by
  unfold lowerChar
  split
  · intro d hd
    obtain rfl := List.mem_singleton.1 hd
    exact isUpper_toLower c
  · next hascii =>
    split
    · decide
    · intro d hd
      obtain rfl := List.mem_singleton.1 hd
      refine isUpper_ofNat ?_
      -- where no run moves it, it stays beyond ASCII
      rcases lowerShift_eq lowerRuns c.toNat with h | ⟨r, hr, hfirst, hlast, h⟩
      · rw [h]
        omega
      · have hbound := lt_first_add_shift r hr (by omega)
        rw [h]
        omega

theorem Lowered.append {a b : List Char} (ha : Lowered a) (hb : Lowered b) : Lowered (a ++ b) := by
  intro c hc
  rcases List.mem_append.1 hc with h | h
  · exact ha c h
  · exact hb c h

/-- The lower-case form of a text holds no capital letter. -/
theorem lowered_lower (cs : List Char) : Lowered (lower cs) := by
  suffices h : ∀ afterCased, Lowered (lowerAfter afterCased cs) from h false
  induction cs with
  | nil => exact fun _ c hc => absurd hc List.not_mem_nil
  | cons c cs ih =>
    intro afterCased
    unfold lowerAfter
    refine Lowered.append ?_ (ih _)
    split
    · split
      · decide
      · decide
    · exact lowered_lowerChar c

/-- The lower-case form of a letter is one letter, with one exception. -/
theorem lowerChar_cases (c : Char) : (∃ d, lowerChar c = [d]) ∨ c = 'İ' := by
  unfold lowerChar
  split
  · exact .inl ⟨_, rfl⟩
  · split
    · next hdotted => exact .inr hdotted
    · exact .inl ⟨_, rfl⟩

/-- A text is in lower case when each of its letters is, wherever they stand: the one letter whose
    form depends on those around it is a capital one. -/
theorem lower_eq_self_iff {cs : List Char} :
    lower cs = cs ↔ ∀ c ∈ cs, c ≠ 'Σ' ∧ lowerChar c = [c] := by
  suffices h : ∀ afterCased,
      lowerAfter afterCased cs = cs ↔ ∀ c ∈ cs, c ≠ 'Σ' ∧ lowerChar c = [c] from h false
  induction cs with
  | nil => simp [lowerAfter]
  | cons c cs ih =>
    intro afterCased
    rw [List.forall_mem_cons, lowerAfter]
    by_cases hsigma : c = 'Σ'
    · subst hsigma
      rw [if_pos rfl, List.singleton_append, List.cons_eq_cons]
      refine iff_of_false (fun h => ?_) fun h => h.1.1 rfl
      have hhead := h.1
      split at hhead
      · exact absurd hhead (by decide)
      · exact absurd hhead (by decide)
    · rw [if_neg hsigma]
      constructor
      · intro h
        have hform : lowerChar c = [c] := by
          rcases lowerChar_cases c with ⟨d, hd⟩ | rfl
          · rw [hd, List.singleton_append, List.cons_eq_cons] at h
            rw [hd, h.1]
          · exact absurd (List.cons_eq_cons.1 h).1 (by decide)
        rw [hform, List.singleton_append, List.cons_eq_cons] at h
        exact ⟨⟨hsigma, hform⟩, (ih _).1 h.2⟩
      · rintro ⟨⟨-, hform⟩, hrest⟩
        rw [hform, (ih _).2 hrest, List.singleton_append]

/-- Without capital letters a text in ASCII is in lower case. -/
theorem lower_eq_self {cs : List Char} (hascii : ∀ c ∈ cs, c.toNat < 0x80) (h : Lowered cs) :
    lower cs = cs := by
  refine lower_eq_self_iff.2 fun c hc => ⟨?_, ?_⟩
  · rintro rfl
    exact absurd (hascii _ hc) (by decide)
  · rw [lowerChar, if_pos (hascii c hc), toLower_eq_self (h c hc)]

end MacroAsm.Text
