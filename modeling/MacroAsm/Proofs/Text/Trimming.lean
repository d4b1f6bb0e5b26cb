import MacroAsm.Proofs.Lists
import MacroAsm.Text.Blank
import Mathlib.Data.List.TakeWhile

set_option autoImplicit false

/-! # Trimming

A text is trimmed exactly when it neither begins nor ends with a blank (`Trimmed`), and every text is
its trimmed form between two stretches of blanks (`exists_eq_append_trim`). All that is asked of
trimming follows from these. -/

namespace MacroAsm.Text

/-- A text that neither begins nor ends with a blank. -/
structure Trimmed (cs : List Char) : Prop where
  head : ∀ c ∈ cs.head?, isBlank c = false
  last : ∀ c ∈ cs.getLast?, isBlank c = false

theorem trimmed_iff {cs : List Char} : Trimmed cs ↔
    cs.head?.all (fun c => !isBlank c) = true ∧ cs.getLast?.all (fun c => !isBlank c) = true := by
  simp only [Option.all_eq_true, Bool.not_eq_true']
  exact ⟨fun h => ⟨h.head, h.last⟩, fun h => ⟨h.1, h.2⟩⟩

instance (cs : List Char) : Decidable (Trimmed cs) :=
  decidable_of_iff' _ trimmed_iff

/-- Nothing but blanks. -/
def Blank (cs : List Char) : Prop :=
  ∀ c ∈ cs, isBlank c = true

theorem trimmed_of_forall {cs : List Char} (h : ∀ c ∈ cs, isBlank c = false) : Trimmed cs :=
  ⟨fun c hc => h c (List.mem_of_mem_head? hc), fun c hc => h c (List.mem_of_mem_getLast? hc)⟩

/-- Only the ends of a text decide whether it is trimmed. -/
theorem Trimmed.append {a b : List Char} (ha : Trimmed a) (hb : Trimmed b) (hane : a ≠ [])
    (hbne : b ≠ []) (between : List Char) : Trimmed (a ++ between ++ b) := by
  obtain ⟨c, cs, rfl⟩ := List.exists_cons_of_ne_nil hane
  refine ⟨ha.head, fun d hd => hb.last d ?_⟩
  rw [List.getLast?_append, List.getLast?_eq_some_getLast hbne] at hd
  rw [List.getLast?_eq_some_getLast hbne]
  exact hd

theorem blank_takeWhile (cs : List Char) : Blank (cs.takeWhile isBlank) :=
  List.all_eq_true.1 List.all_takeWhile

/-- A text ends with a stretch of blanks behind a text that does not. -/
theorem exists_eq_trimEnd_append (cs : List Char) :
    ∃ b, Blank b ∧ cs = trimEnd cs ++ b ∧ ∀ c ∈ (trimEnd cs).getLast?, isBlank c = false := by
  refine ⟨(cs.reverse.takeWhile isBlank).reverse, fun c hc => ?_, ?_, fun c hc => ?_⟩
  · exact blank_takeWhile cs.reverse c (List.mem_reverse.1 hc)
  · rw [trimEnd_eq, ← List.reverse_append, List.takeWhile_append_dropWhile, List.reverse_reverse]
  · rw [trimEnd_eq, List.getLast?_reverse] at hc
    have h := List.head?_dropWhile_not isBlank cs.reverse
    rw [Option.mem_def.1 hc] at h
    exact h

section Blanks

variable {a b cs : List Char}

theorem trimStart_append_of_blank (ha : Blank a) : trimStart (a ++ cs) = trimStart cs :=
  List.dropWhile_append_of_pos ha

theorem trimStart_eq_self (h : ∀ c ∈ cs.head?, isBlank c = false) : trimStart cs = cs := by
  cases cs with
  | nil => rfl
  | cons c cs => exact List.dropWhile_cons_of_neg (by simp [h c rfl])

theorem trimStart_cons {c : Char} (hc : isBlank c = false) (cs : List Char) :
    trimStart (c :: cs) = c :: cs :=
  trimStart_eq_self fun _ hd => Option.some.inj hd ▸ hc

theorem trimEnd_append_of_blank (hb : Blank b) : trimEnd (cs ++ b) = trimEnd cs := by
  rw [trimEnd_eq, trimEnd_eq, List.reverse_append]
  rw [List.dropWhile_append_of_pos fun c hc => hb c (List.mem_reverse.1 hc)]

theorem trimEnd_eq_self (h : ∀ c ∈ cs.getLast?, isBlank c = false) : trimEnd cs = cs := by
  have hreverse : trimStart cs.reverse = cs.reverse :=
    trimStart_eq_self fun c hc => h c (by rwa [List.head?_reverse] at hc)
  rw [trimEnd_eq]
  exact (congrArg List.reverse hreverse).trans (List.reverse_reverse cs)

/-- Blanks are dropped at the end of a text only as far as they reach. -/
theorem trimEnd_append (ha : ∀ c ∈ a.getLast?, isBlank c = false) :
    trimEnd (a ++ cs) = a ++ trimEnd cs := by
  obtain ⟨b, hb, hsplit, hlast⟩ := exists_eq_trimEnd_append cs
  conv => lhs; rw [hsplit]
  rw [← List.append_assoc, trimEnd_append_of_blank hb]
  refine trimEnd_eq_self fun c hc => ?_
  rw [List.getLast?_append] at hc
  cases h : (trimEnd cs).getLast? with
  | none => exact ha c (by simpa [h] using hc)
  | some d => exact hlast c (by simpa [h] using hc)

/-- Blanks around a trimmed text are what trimming drops. -/
theorem trim_append_append (ha : Blank a) (hb : Blank b) (hcs : Trimmed cs) :
    trim (a ++ cs ++ b) = cs := by
  rw [trim, List.append_assoc, trimStart_append_of_blank ha]
  cases cs with
  | nil =>
    have h : trimStart (b ++ []) = [] := trimStart_append_of_blank hb
    rw [List.append_nil] at h
    rw [List.nil_append, h]
    rfl
  | cons c cs =>
    have h : trimStart (c :: cs ++ b) = c :: cs ++ b := trimStart_eq_self hcs.head
    rw [h, trimEnd_append_of_blank hb, trimEnd_eq_self hcs.last]

theorem trim_eq_self (hcs : Trimmed cs) : trim cs = cs := by
  have h := trim_append_append (a := []) (b := []) (by simp [Blank]) (by simp [Blank]) hcs
  simpa using h

end Blanks

variable (cs : List Char)

/-- Every text is a trimmed text between blanks. -/
theorem exists_eq_append_trim :
    ∃ a b, Blank a ∧ Blank b ∧ cs = a ++ trim cs ++ b ∧ Trimmed (trim cs) := by
  obtain ⟨b, hb, hsplit, hlast⟩ := exists_eq_trimEnd_append (trimStart cs)
  refine ⟨cs.takeWhile isBlank, b, blank_takeWhile cs, hb, ?_, ?_, hlast⟩
  · rw [trim, List.append_assoc, ← hsplit, trimStart, List.takeWhile_append_dropWhile]
  · intro c hc
    have hhead : c ∈ (trimStart cs).head? := by
      rw [hsplit, List.head?_append, ← trim, Option.mem_def.1 hc]
      rfl
    have h := List.head?_dropWhile_not isBlank cs
    rw [trimStart, Option.mem_def] at hhead
    rw [hhead] at h
    exact h

theorem trimmed_trim : Trimmed (trim cs) := by
  obtain ⟨-, -, -, -, -, h⟩ := exists_eq_append_trim cs
  exact h

@[simp] theorem trim_trim : trim (trim cs) = trim cs :=
  trim_eq_self (trimmed_trim cs)

/-- Blanks around a text are dropped with those at its own ends. -/
theorem trim_append_append_self {a b : List Char} (ha : Blank a) (hb : Blank b) :
    trim (a ++ cs ++ b) = trim cs := by
  obtain ⟨a', b', ha', hb', hsplit, htrimmed⟩ := exists_eq_append_trim cs
  have hall : a ++ cs ++ b = a ++ a' ++ trim cs ++ (b' ++ b) := by
    conv => lhs; rw [hsplit]
    simp only [List.append_assoc]
  rw [hall]
  exact trim_append_append (List.forall_mem_append.2 ⟨ha, ha'⟩) (List.forall_mem_append.2 ⟨hb', hb⟩)
    htrimmed

theorem trim_cons_of_blank {c : Char} (hc : isBlank c = true) : trim (c :: cs) = trim cs := by
  have h := trim_append_append_self cs (List.forall_mem_singleton.2 hc) (List.forall_mem_nil _)
  rwa [List.append_nil] at h

/-- Trimming takes characters away only. -/
theorem mem_of_mem_trim {c : Char} (hc : c ∈ trim cs) : c ∈ cs := by
  obtain ⟨a, b, -, -, h, -⟩ := exists_eq_append_trim cs
  rw [h]
  exact List.mem_append_left b (List.mem_append_right a hc)

/-! ## The first word -/

section Words

variable {w : List Char}

theorem splitAtBlank_eq_none (hw : ∀ c ∈ w, isBlank c = false) : splitAtBlank w = none := by
  have hdrop : w.dropWhile (fun c => !isBlank c) = [] :=
    List.dropWhile_eq_nil_iff.2 fun c hc => by simp [hw c hc]
  rw [splitAtBlank, hdrop]

/-- A word is cut off at the blank behind it. -/
theorem splitAtBlank_append (hw : ∀ c ∈ w, isBlank c = false) {b : Char} (hb : isBlank b = true)
    (rest : List Char) : splitAtBlank (w ++ b :: rest) = some (w, rest) := by
  have hall : ∀ c ∈ w, (!isBlank c) = true := fun c hc => by simp [hw c hc]
  have hdrop : (w ++ b :: rest).dropWhile (fun c => !isBlank c) = b :: rest := by
    rw [List.dropWhile_append_of_pos hall, List.dropWhile_cons_of_neg (by simp [hb])]
  have htake : (w ++ b :: rest).takeWhile (fun c => !isBlank c) = w := by
    rw [List.takeWhile_append_of_pos hall, List.takeWhile_cons_of_neg (by simp [hb]),
      List.append_nil]
  rw [splitAtBlank, hdrop]
  simp only [htake]

end Words

end MacroAsm.Text
