import MacroAsm.Text.Shape

set_option autoImplicit false

/-! # The texts of a shape

What a shape takes can be said without reading: a sequence takes one text behind the other, a
repetition as many characters of its class as there are (`Shape.Takes`). Reading one character after
the other finds these texts and no others (`Shape.accepts_iff`). What one character leaves of a shape
is said by induction on the shape; the shapes behind it and what is left of them if it takes nothing
stay arbitrary, as they change along a sequence. -/

namespace MacroAsm.Text.Shape

/-! ## Texts -/

/-- Whether a shape takes a text. -/
def Takes : Shape → List Char → Prop
  | .text t, cs => cs = t
  | .maybe d, cs => cs = [] ∨ cs = [d]
  | .one s, cs => ∃ c, s.has c = true ∧ cs = [c]
  | .many s, cs => ∀ c ∈ cs, s.has c = true
  | .some s, cs => cs ≠ [] ∧ ∀ c ∈ cs, s.has c = true
  | .seq a b, cs => ∃ u v, cs = u ++ v ∧ a.Takes u ∧ b.Takes v
  | .choice a b, cs => a.Takes cs ∨ b.Takes cs

/-- Whether shapes take a text, one behind the other. -/
def TakesAll : List Shape → List Char → Prop
  | [], cs => cs = []
  | s :: behind, cs => ∃ u v, cs = u ++ v ∧ s.Takes u ∧ TakesAll behind v

theorem mayBeEmpty_iff (s : Shape) : s.mayBeEmpty = true ↔ s.Takes [] := by
  induction s with
  | text t => cases t <;> simp [mayBeEmpty, Takes]
  | maybe d => simp [mayBeEmpty, Takes]
  | one s => simp [mayBeEmpty, Takes]
  | many s => simp [mayBeEmpty, Takes]
  | some s => simp [mayBeEmpty, Takes]
  | seq a b iha ihb =>
    simp only [mayBeEmpty, Bool.and_eq_true, iha, ihb, Takes]
    constructor
    · rintro ⟨ha, hb⟩
      exact ⟨[], [], rfl, ha, hb⟩
    · rintro ⟨u, v, huv, ha, hb⟩
      obtain ⟨rfl, rfl⟩ := List.append_eq_nil_iff.1 huv.symm
      exact ⟨ha, hb⟩
  | choice a b iha ihb => simp only [mayBeEmpty, Bool.or_eq_true, iha, ihb, Takes]

theorem all_mayBeEmpty_iff (shapes : List Shape) :
    shapes.all (·.mayBeEmpty) = true ↔ TakesAll shapes [] := by
  induction shapes with
  | nil => simp [TakesAll]
  | cons s behind ih =>
    simp only [List.all_cons, Bool.and_eq_true, mayBeEmpty_iff, ih, TakesAll]
    constructor
    · rintro ⟨hs, hbehind⟩
      exact ⟨[], [], rfl, hs, hbehind⟩
    · rintro ⟨u, v, huv, hs, hbehind⟩
      obtain ⟨rfl, rfl⟩ := List.append_eq_nil_iff.1 huv.symm
      exact ⟨hs, hbehind⟩

theorem takesAll_singleton (s : Shape) (cs : List Char) : TakesAll [s] cs ↔ s.Takes cs := by
  constructor
  · rintro ⟨u, v, rfl, hs, rfl⟩
    rwa [List.append_nil]
  · intro hs
    exact ⟨cs, [], (List.append_nil cs).symm, hs, rfl⟩

/-! ## One character -/

/-- Whether a text begins with a character and the rest of what a shape takes, and goes on as the
    shapes behind it do. -/
def Begins (c : Char) (s : Shape) (behind : List Shape) (cs : List Char) : Prop :=
  ∃ u v, cs = u ++ v ∧ s.Takes (c :: u) ∧ TakesAll behind v

/-- In a sequence the character belongs to the first shape, or that takes nothing and the character
    belongs to the second. -/
theorem begins_seq {c : Char} {a b : Shape} {behind : List Shape} {cs : List Char} :
    Begins c (.seq a b) behind cs ↔
      Begins c a (b :: behind) cs ∨ a.Takes [] ∧ Begins c b behind cs := by
  constructor
  · rintro ⟨u, v, rfl, ⟨x, y, hxy, ha, hb⟩, hbehind⟩
    cases x with
    | nil => exact .inr ⟨ha, u, v, rfl, hxy ▸ hb, hbehind⟩
    | cons d x =>
      obtain ⟨rfl, rfl⟩ := List.cons_eq_cons.1 hxy
      exact .inl ⟨x, y ++ v, List.append_assoc _ _ _, ha, y, v, rfl, hb, hbehind⟩
  · rintro (⟨u, v, rfl, ha, x, y, rfl, hb, hbehind⟩ | ⟨ha, u, v, rfl, hb, hbehind⟩)
    · exact ⟨u ++ x, y, (List.append_assoc _ _ _).symm, ⟨c :: u, x, rfl, ha, hb⟩, hbehind⟩
    · exact ⟨u, v, rfl, ⟨[], c :: u, rfl, ha, hb⟩, hbehind⟩

theorem begins_choice {c : Char} {a b : Shape} {behind : List Shape} {cs : List Char} :
    Begins c (.choice a b) behind cs ↔ Begins c a behind cs ∨ Begins c b behind cs := by
  constructor
  · rintro ⟨u, v, rfl, ha | hb, hbehind⟩
    · exact .inl ⟨u, v, rfl, ha, hbehind⟩
    · exact .inr ⟨u, v, rfl, hb, hbehind⟩
  · rintro (⟨u, v, rfl, ha, hbehind⟩ | ⟨u, v, rfl, hb, hbehind⟩)
    · exact ⟨u, v, rfl, .inl ha, hbehind⟩
    · exact ⟨u, v, rfl, .inr hb, hbehind⟩

/-- A shape of one character leaves the shapes behind it. -/
theorem begins_of_single {c : Char} {s : Shape} {behind : List Shape} {cs : List Char} {p : Prop}
    (h : ∀ u, s.Takes (c :: u) ↔ p ∧ u = []) : Begins c s behind cs ↔ p ∧ TakesAll behind cs := by
  constructor
  · rintro ⟨u, v, rfl, hs, hbehind⟩
    obtain ⟨hp, rfl⟩ := (h u).1 hs
    exact ⟨hp, hbehind⟩
  · rintro ⟨hp, hbehind⟩
    exact ⟨[], cs, rfl, (h []).2 ⟨hp, rfl⟩, hbehind⟩

/-- A shape of more characters leaves its rest in front of the shapes behind it. -/
theorem begins_of_rest {c : Char} {s r : Shape} {behind : List Shape} {cs : List Char} {p : Prop}
    (h : ∀ u, s.Takes (c :: u) ↔ p ∧ r.Takes u) :
    Begins c s behind cs ↔ p ∧ TakesAll (r :: behind) cs := by
  constructor
  · rintro ⟨u, v, rfl, hs, hbehind⟩
    obtain ⟨hp, hrest⟩ := (h u).1 hs
    exact ⟨hp, u, v, rfl, hrest, hbehind⟩
  · rintro ⟨hp, u, v, rfl, hrest, hbehind⟩
    exact ⟨u, v, rfl, (h u).2 ⟨hp, hrest⟩, hbehind⟩

theorem takes_one_cons {s : CharSet} {c : Char} {u : List Char} :
    (one s).Takes (c :: u) ↔ s.has c = true ∧ u = [] := by
  constructor
  · rintro ⟨d, hd, hcu⟩
    obtain ⟨rfl, rfl⟩ := List.cons_eq_cons.1 hcu
    exact ⟨hd, rfl⟩
  · rintro ⟨hc, rfl⟩
    exact ⟨c, hc, rfl⟩

/-- What may be left of a shape behind a character takes what goes on behind that character. -/
theorem exists_mem_afterFirst {c : Char} (s : Shape) (behind : List Shape)
    (skipped : List (List Shape)) (cs : List Char) :
    (∃ l ∈ afterFirst c s behind skipped, TakesAll l cs) ↔
      Begins c s behind cs ∨ s.Takes [] ∧ ∃ l ∈ skipped, TakesAll l cs := by
  induction s generalizing behind skipped with
  | text t =>
    rcases t with _ | ⟨d, _ | ⟨e, t⟩⟩
    · simp [afterFirst, Begins, Takes]
    · rw [begins_of_single (p := c = d) fun u => by simp [Takes]]
      by_cases h : c = d <;> simp [afterFirst, Takes, h]
    · rw [begins_of_rest (p := c = d) (r := .text (e :: t)) fun u => by simp [Takes]]
      by_cases h : c = d <;> simp [afterFirst, Takes, h]
  | maybe d =>
    rw [begins_of_single (p := c = d) fun u => by simp [Takes]]
    by_cases h : c = d <;> simp [afterFirst, Takes, h]
  | one s =>
    rw [begins_of_single fun _ => takes_one_cons]
    by_cases h : s.has c = true <;> simp [afterFirst, Takes, h]
  | many s =>
    rw [begins_of_rest (p := s.has c = true) (r := .many s) fun u => by simp [Takes]]
    by_cases h : s.has c = true <;> simp [afterFirst, Takes, h]
  | some s =>
    rw [begins_of_rest (p := s.has c = true) (r := .many s) fun u => by simp [Takes]]
    by_cases h : s.has c = true <;> simp [afterFirst, Takes, h]
  | seq a b iha ihb =>
    rw [afterFirst, iha, ihb, begins_seq, and_or_left, ← or_assoc, ← and_assoc]
    refine or_congr_right (and_congr_left fun _ => ?_)
    rw [← mayBeEmpty_iff, ← mayBeEmpty_iff, ← mayBeEmpty_iff, mayBeEmpty, Bool.and_eq_true]
  | choice a b iha ihb =>
    simp only [afterFirst, List.mem_append, or_and_right, exists_or, iha, ihb, begins_choice, Takes]
    exact or_or_or_comm

/-! ## All characters -/

theorem exists_mem_after {c : Char} (shapes : List Shape) (cs : List Char) :
    (∃ l ∈ after c shapes, TakesAll l cs) ↔ TakesAll shapes (c :: cs) := by
  induction shapes generalizing cs with
  | nil => simp [after, TakesAll]
  | cons s behind ih =>
    rw [after, exists_mem_afterFirst, ih]
    constructor
    · rintro (⟨u, v, rfl, hs, hbehind⟩ | ⟨hs, hbehind⟩)
      · exact ⟨c :: u, v, rfl, hs, hbehind⟩
      · exact ⟨[], c :: cs, rfl, hs, hbehind⟩
    · rintro ⟨u, v, huv, hs, hbehind⟩
      cases u with
      | nil => exact .inr ⟨hs, huv ▸ hbehind⟩
      | cons d u =>
        obtain ⟨rfl, rfl⟩ := List.cons_eq_cons.1 huv
        exact .inl ⟨u, v, rfl, hs, hbehind⟩

theorem any_foldl_after (cs : List Char) (lefts : List (List Shape)) :
    (cs.foldl (fun left c => left.flatMap (after c)) lefts).any
        (fun left => left.all (·.mayBeEmpty)) = true ↔
      ∃ l ∈ lefts, TakesAll l cs := by
  induction cs generalizing lefts with
  | nil => simp only [List.foldl_nil, List.any_eq_true, all_mayBeEmpty_iff]
  | cons c cs ih =>
    rw [List.foldl_cons, ih]
    constructor
    · rintro ⟨l, hl, htakes⟩
      obtain ⟨k, hk, hlk⟩ := List.mem_flatMap.1 hl
      exact ⟨k, hk, (exists_mem_after k cs).1 ⟨l, hlk, htakes⟩⟩
    · rintro ⟨k, hk, htakes⟩
      obtain ⟨l, hl, hlcs⟩ := (exists_mem_after k cs).2 htakes
      exact ⟨l, List.mem_flatMap.2 ⟨k, hk, hl⟩, hlcs⟩

/-- A shape accepts the texts that it takes. -/
theorem accepts_iff {s : Shape} {cs : List Char} : s.accepts cs = true ↔ s.Takes cs := by
  unfold accepts takes
  rw [any_foldl_after]
  simp only [List.mem_singleton, exists_eq_left]
  exact takesAll_singleton s cs

end MacroAsm.Text.Shape
