import Mathlib.Logic.Function.Defs
import MacroAsm.Proofs.Template.Places

set_option autoImplicit false

/-! # Templates and the code they carry

A template is accepted exactly if the code can be recovered from what it is filled to, whatever the
sizes (`Template.ofText_iff_injective`). A place adds no line ends to the code, so two codes with the
same result have the same number of line ends; then every place adds the same indentation to both, so
they have the same length; and then each place is found at the same position of both results. -/

namespace MacroAsm.Template

/-! ## The code in one place -/

/-- A code with an indentation behind each of its line ends. -/
def indentedChars (indent code : List Char) : List Char :=
  code.flatMap fun c => if c = '\n' then '\n' :: indent else [c]

section Place

variable {indent code code' : List Char}

theorem indentedChars_cons (indent : List Char) (c : Char) (code : List Char) :
    indentedChars indent (c :: code) =
      (if c = '\n' then '\n' :: indent else [c]) ++ indentedChars indent code :=
  List.flatMap_cons

/-- Indentation adds no line ends. -/
theorem count_indentedChars (hindent : '\n' ∉ indent) (code : List Char) :
    (indentedChars indent code).count '\n' = code.count '\n' := by
  induction code with
  | nil => rfl
  | cons c code ih =>
    rw [indentedChars_cons, List.count_append, ih, List.count_cons]
    by_cases hc : c = '\n'
    · simp [hc, List.count_eq_zero.2 hindent, Nat.add_comm]
    · simp [hc]

/-- Indentation adds its length for each line end. -/
theorem length_indentedChars (indent code : List Char) :
    (indentedChars indent code).length = code.length + code.count '\n' * indent.length := by
  induction code with
  | nil => simp [indentedChars]
  | cons c code ih =>
    rw [indentedChars_cons, List.length_append, ih, List.count_cons, List.length_cons]
    by_cases hc : c = '\n'
    · simp [hc, Nat.add_mul]
      omega
    · simp [hc]
      omega

/-- The code is what is left when the indentation is taken away. -/
theorem eq_of_indentedChars_eq (h : indentedChars indent code = indentedChars indent code') :
    code = code' := by
  induction code generalizing code' with
  | nil =>
    cases code' with
    | nil => rfl
    | cons d code' =>
      rw [indentedChars_cons] at h
      split at h <;> simp [indentedChars] at h
  | cons c code ih =>
    cases code' with
    | nil =>
      rw [indentedChars_cons] at h
      split at h <;> simp [indentedChars] at h
    | cons d code' =>
      rw [indentedChars_cons, indentedChars_cons] at h
      by_cases hc : c = '\n'
      · by_cases hd : d = '\n'
        · rw [if_pos hc, if_pos hd] at h
          rw [hc, hd, ih (List.append_cancel_left h)]
        · rw [if_pos hc, if_neg hd] at h
          exact absurd (List.head_eq_of_cons_eq h).symm hd
      · by_cases hd : d = '\n'
        · rw [if_neg hc, if_pos hd] at h
          exact absurd (List.head_eq_of_cons_eq h) hc
        · rw [if_neg hc, if_neg hd] at h
          obtain ⟨rfl, htail⟩ := List.cons_eq_cons.1 h
          rw [ih htail]

end Place

/-! ## All places -/

theorem newline_notMem_leadingBlanks (line : List Char) : '\n' ∉ leadingBlanks line := by
  intro hmem
  have hall := List.all_eq_true.1
    (List.all_takeWhile (p := fun c => c == ' ' || c == '\t') (l := line))
  exact absurd (hall '\n' hmem) (by decide)

section Places

variable {v : TemplateValues} {code code' : String} {indent name before : List Char}
  {rest : List (List Char × List Char)}

/-- Other places do not depend on the code. -/
theorem expansion_of_ne (h : name ≠ "code".toList) (code code' : String) :
    expansion { v with code := code } indent name = expansion { v with code := code' } indent name := by
  simp only [expansion, if_neg h]

/-- What is more in each place of the code is not less in all of the template. -/
theorem measure_filledFrom_le {μ : List Char → Nat} (happend : ∀ a b, μ (a ++ b) = μ a + μ b)
    (hcode : ∀ indent, '\n' ∉ indent →
      μ (indentedChars indent code.toList) < μ (indentedChars indent code'.toList)) :
    μ (filledFrom { v with code := code } before rest) ≤
      μ (filledFrom { v with code := code' } before rest) := by
  induction rest generalizing before with
  | nil => exact Nat.le_refl _
  | cons p rest ih =>
    obtain ⟨name, literal⟩ := p
    simp only [filledFrom, happend]
    refine Nat.add_le_add (Nat.add_le_add_right ?_ _) ih
    by_cases hname : name = "code".toList
    · subst hname
      exact Nat.le_of_lt (hcode _ (newline_notMem_leadingBlanks _))
    · exact Nat.le_of_eq (congrArg μ (expansion_of_ne hname code code'))

/-- And it is more if the code has a place. -/
theorem measure_filledFrom_lt {μ : List Char → Nat} (happend : ∀ a b, μ (a ++ b) = μ a + μ b)
    (hcode : ∀ indent, '\n' ∉ indent →
      μ (indentedChars indent code.toList) < μ (indentedChars indent code'.toList))
    (hmem : "code".toList ∈ rest.map Prod.fst) :
    μ (filledFrom { v with code := code } before rest) <
      μ (filledFrom { v with code := code' } before rest) := by
  induction rest generalizing before with
  | nil => simp at hmem
  | cons p rest ih =>
    obtain ⟨name, literal⟩ := p
    simp only [filledFrom, happend]
    by_cases hname : name = "code".toList
    · subst hname
      refine Nat.add_lt_add_of_lt_of_le (Nat.add_lt_add_right ?_ _)
        (measure_filledFrom_le happend hcode)
      exact hcode _ (newline_notMem_leadingBlanks _)
    · rw [expansion_of_ne hname code code']
      exact Nat.add_lt_add_left (ih ((List.mem_cons.1 hmem).resolve_left (Ne.symm hname))) _

/-- So a code that is more in each of its places has another result. -/
theorem filledFrom_ne {μ : List Char → Nat} (happend : ∀ a b, μ (a ++ b) = μ a + μ b)
    (hcode : ∀ indent, '\n' ∉ indent →
      μ (indentedChars indent code.toList) < μ (indentedChars indent code'.toList))
    (hmem : "code".toList ∈ rest.map Prod.fst) :
    filledFrom { v with code := code } before rest ≠
      filledFrom { v with code := code' } before rest :=
  fun h => Nat.ne_of_lt (measure_filledFrom_lt happend hcode hmem) (congrArg μ h)

/-- Results in which all places of the code are equally long agree place by place. -/
theorem code_eq_of_filledFrom_eq
    (hlength : ∀ indent, (indentedChars indent code.toList).length =
      (indentedChars indent code'.toList).length)
    (hmem : "code".toList ∈ rest.map Prod.fst)
    (h : filledFrom { v with code := code } before rest =
      filledFrom { v with code := code' } before rest) : code = code' := by
  induction rest generalizing before with
  | nil => simp at hmem
  | cons p rest ih =>
    obtain ⟨name, literal⟩ := p
    simp only [filledFrom, List.append_assoc] at h
    by_cases hname : name = "code".toList
    · subst hname
      exact String.toList_inj.1 (eq_of_indentedChars_eq (List.append_inj_left h (hlength _)))
    · rw [expansion_of_ne hname code code'] at h
      have hbehind := List.append_cancel_left (List.append_cancel_left h)
      exact ih ((List.mem_cons.1 hmem).resolve_left (Ne.symm hname)) hbehind

/-- A code with fewer line ends has another result. -/
theorem filledFrom_ne_of_count_lt (h : code.toList.count '\n' < code'.toList.count '\n')
    (hmem : "code".toList ∈ rest.map Prod.fst) :
    filledFrom { v with code := code } before rest ≠
      filledFrom { v with code := code' } before rest := by
  refine filledFrom_ne (μ := List.count '\n') (fun _ _ => List.count_append)
    (fun indent hindent => ?_) hmem
  rwa [count_indentedChars hindent, count_indentedChars hindent]

/-- With as many line ends, so has a shorter code. -/
theorem filledFrom_ne_of_length_lt (hcount : code.toList.count '\n' = code'.toList.count '\n')
    (h : code.toList.length < code'.toList.length) (hmem : "code".toList ∈ rest.map Prod.fst) :
    filledFrom { v with code := code } before rest ≠
      filledFrom { v with code := code' } before rest := by
  refine filledFrom_ne (μ := List.length) (fun _ _ => List.length_append) (fun indent _ => ?_) hmem
  rw [length_indentedChars, length_indentedChars, hcount]
  exact Nat.add_lt_add_right h _

/-- The code can be recovered from the result if it has a place. -/
theorem filledFrom_injective (hmem : "code".toList ∈ rest.map Prod.fst)
    (h : filledFrom { v with code := code } before rest =
      filledFrom { v with code := code' } before rest) : code = code' := by
  have hcount : code.toList.count '\n' = code'.toList.count '\n' := by
    rcases Nat.lt_trichotomy (code.toList.count '\n') (code'.toList.count '\n') with
      hlt | heq | hgt
    · exact absurd h (filledFrom_ne_of_count_lt hlt hmem)
    · exact heq
    · exact absurd h.symm (filledFrom_ne_of_count_lt hgt hmem)
  have hlength : code.toList.length = code'.toList.length := by
    rcases Nat.lt_trichotomy code.toList.length code'.toList.length with hlt | heq | hgt
    · exact absurd h (filledFrom_ne_of_length_lt hcount hlt hmem)
    · exact heq
    · exact absurd h.symm (filledFrom_ne_of_length_lt hcount.symm hgt hmem)
  refine code_eq_of_filledFrom_eq (fun indent => ?_) hmem h
  rw [length_indentedChars, length_indentedChars, hcount, hlength]

/-- Without a place for the code the result does not depend on it. -/
theorem filledFrom_congr (h : "code".toList ∉ rest.map Prod.fst) :
    filledFrom { v with code := code } before rest =
      filledFrom { v with code := code' } before rest := by
  induction rest generalizing before with
  | nil => rfl
  | cons p rest ih =>
    obtain ⟨name, literal⟩ := p
    obtain ⟨hname, hrest⟩ := not_or.1 (mt List.mem_cons.2 h)
    simp only [filledFrom]
    rw [expansion_of_ne (Ne.symm hname) code code', ih hrest]

end Places

/-! ## Accepted templates -/

section Accepted

variable {name text : String}

theorem hasCode_iff : hasCode text = true ↔ "code".toList ∈ (cut text.toList).tokens := by
  rw [hasCode, List.any_beq']
  exact List.contains_iff_mem

theorem notMem_tokens (h : hasCode text = false) : "code".toList ∉ (cut text.toList).tokens := by
  rw [← hasCode_iff, h]
  exact Bool.false_ne_true

/-- A template with a place for the code shows all of the code. -/
theorem render_injective (h : hasCode text = true) (v : TemplateValues) :
    Function.Injective fun code => render ⟨name, text⟩ { v with code := code } := by
  intro code code' heq
  have hchars := congrArg String.toList heq
  dsimp only at hchars
  rw [toList_render, toList_render] at hchars
  exact filledFrom_injective (hasCode_iff.1 h) (List.append_cancel_left hchars)

/-- A template without one shows nothing of it. -/
theorem render_congr (h : hasCode text = false) (v : TemplateValues) (code code' : String) :
    render ⟨name, text⟩ { v with code := code } = render ⟨name, text⟩ { v with code := code' } := by
  rw [← String.toList_inj, toList_render, toList_render]
  exact congrArg _ (filledFrom_congr (notMem_tokens h))

/-- **A template is accepted exactly if the code survives.** An accepted template gives different
    results for different codes, whatever the sizes, the lines of the code and the places it is
    inserted in; a refused one has no place for the code and gives one result for all of them. -/
theorem ofText_iff_injective (name text : String) :
    (ofText name text = .ok ⟨name, text⟩ ↔ ∀ v : TemplateValues,
      Function.Injective fun code => render ⟨name, text⟩ { v with code := code }) ∧
    (ofText name text = .error (.templateWithoutCode name) ↔
      (∀ places, CutAtPlaces text.toList places → "code".toList ∉ places.tokens) ∧
        ∀ (v : TemplateValues) (code code' : String),
          render ⟨name, text⟩ { v with code := code } =
            render ⟨name, text⟩ { v with code := code' }) ∧
    (ofText name text = .ok ⟨name, text⟩ ∨
      ofText name text = .error (.templateWithoutCode name)) := by
  unfold ofText
  cases hcode : hasCode text with
  | true =>
    simp only [if_true, reduceCtorEq, true_iff, false_iff, true_or, and_true]
    exact ⟨render_injective hcode, fun h => h.1 _ (cutAtPlaces_cut _) (hasCode_iff.1 hcode)⟩
  | false =>
    simp only [Bool.false_eq_true, if_false, reduceCtorEq, true_iff, false_iff, or_true, and_true]
    refine ⟨fun h => ?_, fun places hplaces => hplaces.eq_cut ▸ notMem_tokens hcode,
      render_congr hcode⟩
    have hsame := h ⟨0, 0, 0, ""⟩ (render_congr hcode ⟨0, 0, 0, ""⟩ "" "a")
    exact absurd hsame (by decide)

end Accepted

end MacroAsm.Template
