import MacroAsm.Proofs.Macros.Forest
import MacroAsm.Proofs.Text.Cuts

set_option autoImplicit false

/-! # The search for a closer

Going through the lines of a forest, `Expansion.findCloser` counts the uses of one macro up and its
closers down. A block of that macro leaves the count as it was. So does a block with another closer.
A block of another macro with the same closer, a stray one, is not counted up but is counted down.
The search therefore gets past a forest exactly if the count it begins with is not less than the
number of stray blocks (`findCloser_lines`, `findCloser_stops`). -/

namespace MacroAsm

variable {macros : List Macro}

/-! ## Closers without placeholders -/

/-- Filling a text without placeholders leaves it as it is. -/
theorem Placeholder.fill_of_tokens_eq_nil {line : String} (h : (cut line).tokens = [])
    (args : List String) (uid : Nat) : fill line args uid = .ok line := by
  have hrest : (cut line).rest = [] := List.map_eq_nil_iff.1 h
  have hlead : (cut line).lead = line.toList := Text.Cut.lead_eq_of_rest_eq_nil hrest
  simp [fill, h, Text.Cut.fillText, hrest, hlead]

/-- All uses of a macro have the same closer if that closer has no placeholder. -/
theorem Macro.ClosesFixed.closerText {m : Macro} (h : m.ClosesFixed) (args : List String)
    (uid : Nat) : Expansion.closerText m args uid = .ok m.closing := by
  unfold Macro.ClosesFixed Macro.closing at *
  unfold Expansion.closerText
  cases hc : m.closer with
  | none => rfl
  | some c =>
    rw [hc] at h
    exact Placeholder.fill_of_tokens_eq_nil h args uid

/-! ## Lines of blocks -/

namespace Expansion

theorem not_captures_of_not_uses {l : Line} {m : Macro} (h : ¬ l.Uses macros) (hm : m ∈ macros) :
    (m.captures? l.code).isSome = false := by
  rw [← Bool.not_eq_true]
  exact fun hc => h ⟨m, hm, hc⟩

theorem not_closes_of_not_ends {l : Line} {m : Macro} (h : ¬ l.Ends macros) (hm : m ∈ macros) :
    closes m.closing l.code = false := by
  rw [← Bool.not_eq_true]
  exact fun hc => h ⟨m, hm, hc⟩

/-- A line of code that is one closer is another one only if both are the same. -/
theorem closes_eq_decide_of {s t code : String} (h : closes s code = true) :
    closes t code = decide (s = t) := by
  simp only [closes, beq_iff_eq] at h ⊢
  rw [h, Bool.eq_iff_iff]
  simp [String.toList_inj]

/-- What closes one macro closes another one only if their closers are the same. -/
theorem closes_eq_decide {m n : Macro} {l : Line} (h : closes n.closing l.code = true) :
    closes m.closing l.code = decide (n.closing = m.closing) :=
  closes_eq_decide_of h

variable {m : Macro} {l : Line} {depth : Nat} {before rest : List Line}

theorem findCloser_cons_plain (hm : m ∈ macros) (hl : l.Plain macros) :
    findCloser m m.closing depth before (l :: rest) =
      findCloser m m.closing depth (l :: before) rest := by
  simp [findCloser, not_captures_of_not_uses hl.1 hm, not_closes_of_not_ends hl.2 hm]

/-- An opener is counted up by its own macro only. -/
theorem findCloser_cons_opener {o : Opening} (hm : m ∈ macros) (ho : o.Clear macros) :
    findCloser m m.closing depth before (o.line :: rest) =
      findCloser m m.closing (if o.mac = m then depth + 1 else depth) (o.line :: before) rest := by
  by_cases h : o.mac = m
  · subst h
    simp [findCloser, ho.captures]
  · have hc : (m.captures? o.line.code).isSome = false := by
      rw [← Bool.not_eq_true]
      exact fun hc => h (ho.only m hm hc).symm
    simp [findCloser, hc, not_closes_of_not_ends ho.not_ends hm, h]

/-- A closer is counted down by all macros with this closer. -/
theorem findCloser_cons_closer {n : Macro} (hm : m ∈ macros) (hn : closes n.closing l.code = true)
    (hu : ¬ l.Uses macros) (h : n.closing = m.closing) :
    findCloser m m.closing (depth + 1) before (l :: rest) =
      findCloser m m.closing depth (l :: before) rest := by
  simp [findCloser, not_captures_of_not_uses hu hm, closes_eq_decide hn, h]

/-- A closer that is met at depth zero is the one that was searched. -/
theorem findCloser_cons_found {n : Macro} (hm : m ∈ macros) (hn : closes n.closing l.code = true)
    (hu : ¬ l.Uses macros) (h : n.closing = m.closing) :
    findCloser m m.closing 0 before (l :: rest) = some ⟨before.reverse, l, rest⟩ := by
  simp [findCloser, not_captures_of_not_uses hu hm, closes_eq_decide hn, h]

theorem findCloser_cons_other {n : Macro} (hm : m ∈ macros) (hn : closes n.closing l.code = true)
    (hu : ¬ l.Uses macros) (h : n.closing ≠ m.closing) :
    findCloser m m.closing depth before (l :: rest) =
      findCloser m m.closing depth (l :: before) rest := by
  simp [findCloser, not_captures_of_not_uses hu hm, closes_eq_decide hn, h]

end Expansion

/-! ## Stray blocks -/

namespace Forest

/-- How many blocks of other macros have the closer of a macro. -/
def strays (m : Macro) : Forest → Nat
  | nil => 0
  | line _ rest => rest.strays m
  | block o inside _ rest =>
    (if o.mac ≠ m ∧ o.mac.closing = m.closing then 1 else 0) + inside.strays m + rest.strays m

/-- Whether no block has a block of another macro with the same closer inside. -/
def Separated : Forest → Prop
  | nil => True
  | line _ rest => rest.Separated
  | block o inside _ rest => inside.strays o.mac = 0 ∧ inside.Separated ∧ rest.Separated

instance decidableSeparated : (f : Forest) → Decidable f.Separated
  | nil => .isTrue trivial
  | line _ rest => decidableSeparated rest
  | block o inside _ rest =>
    have := decidableSeparated inside
    have := decidableSeparated rest
    inferInstanceAs (Decidable (inside.strays o.mac = 0 ∧ inside.Separated ∧ rest.Separated))

theorem separated_append {f g : Forest} : (f ++ g).Separated ↔ f.Separated ∧ g.Separated := by
  induction f with
  | nil => simp [Separated]
  | line l rest ih => simpa [Separated] using ih
  | block o inside closer rest _ ih => simp [Separated, ih, and_assoc]

theorem separated_ofLines (ls : List Line) : (ofLines ls).Separated := by
  induction ls with
  | nil => trivial
  | cons l ls ih => simpa [ofLines, Separated] using ih

end Forest

/-! ## Searching in a forest -/

namespace Expansion

open Forest (strays)

variable {m : Macro}

/-- The search gets past a forest if it begins with a count of at least the stray blocks. -/
theorem findCloser_lines (hm : m ∈ macros) {f : Forest} (hf : f.Bracketed macros) {depth : Nat}
    (before tail : List Line) (hd : f.strays m ≤ depth) :
    findCloser m m.closing depth before (f.lines ++ tail) =
      findCloser m m.closing (depth - f.strays m) (f.lines.reverse ++ before) tail := by
  induction f generalizing depth before tail with
  | nil => simp [Forest.lines, strays]
  | line l rest ih =>
    rw [Forest.lines, List.cons_append, findCloser_cons_plain hm hf.1, ih hf.2 _ _ hd]
    simp [strays]
  | block o inside closer rest ihi ihr =>
    obtain ⟨ho, hc, hu, hi, hr⟩ := hf
    rw [strays] at hd
    have hlines : (Forest.block o inside closer rest).lines ++ tail =
        o.line :: (inside.lines ++ closer :: (rest.lines ++ tail)) := by
      simp [Forest.lines]
    have hreverse : rest.lines.reverse ++ closer :: (inside.lines.reverse ++ o.line :: before) =
        (Forest.block o inside closer rest).lines.reverse ++ before := by
      simp [Forest.lines]
    rw [hlines, findCloser_cons_opener hm ho, strays]
    by_cases hs : o.mac.closing = m.closing
    · -- the closer counts down what the opener of a block of `m` counted up, or else a stray block
      obtain ⟨d, hup, hd'⟩ : ∃ d,
          (if o.mac = m then depth + 1 else depth) = inside.strays m + d + 1 ∧
          d = depth -
            ((if o.mac ≠ m ∧ o.mac.closing = m.closing then 1 else 0) + inside.strays m) := by
        by_cases hom : o.mac = m
        · simp only [hom, ne_eq, not_true_eq_false, false_and, if_false, if_true] at hd ⊢
          exact ⟨depth - inside.strays m, by omega, by omega⟩
        · simp only [hom, hs, ne_eq, not_false_eq_true, and_self, if_false, if_true] at hd ⊢
          exact ⟨depth - (1 + inside.strays m), by omega, rfl⟩
      have hleft : inside.strays m + d + 1 - inside.strays m = d + 1 := by omega
      rw [hup, ihi hi _ _ (by omega), hleft, findCloser_cons_closer hm hc hu hs,
        ihr hr _ _ (by omega), hreverse, hd', Nat.sub_sub]
    · have hom : o.mac ≠ m := fun h => hs (h ▸ rfl)
      simp only [hs, hom, and_false, if_false, Nat.zero_add] at hd ⊢
      rw [ihi hi _ _ (by omega), findCloser_cons_other hm hc hu hs, ihr hr _ _ (by omega), hreverse,
        Nat.sub_sub]

/-- The search ends before the end of a forest if it begins with a count of less than the stray
    blocks. -/
theorem findCloser_stops (hm : m ∈ macros) {f : Forest} (hf : f.Bracketed macros) {depth : Nat}
    (before tail : List Line) (hd : depth < f.strays m) :
    ∃ b, findCloser m m.closing depth before (f.lines ++ tail) = some b ∧
      b.inside.length < before.length + f.lines.length := by
  induction f generalizing depth before tail with
  | nil => simp [strays] at hd
  | line l rest ih =>
    obtain ⟨b, hb, hlen⟩ := ih hf.2 (l :: before) tail hd
    refine ⟨b, ?_, ?_⟩
    · rw [Forest.lines, List.cons_append, findCloser_cons_plain hm hf.1, hb]
    · simp only [List.length_cons, Forest.lines] at hlen ⊢
      omega
  | block o inside closer rest ihi ihr =>
    obtain ⟨ho, hc, hu, hi, hr⟩ := hf
    rw [strays] at hd
    have hlines : (Forest.block o inside closer rest).lines ++ tail =
        o.line :: (inside.lines ++ closer :: (rest.lines ++ tail)) := by
      simp [Forest.lines]
    have hlength : (Forest.block o inside closer rest).lines.length =
        inside.lines.length + rest.lines.length + 2 := by
      simp [Forest.lines]; omega
    rw [hlines, findCloser_cons_opener hm ho]
    generalize hup : (if o.mac = m then depth + 1 else depth) = up
    -- either the search ends inside the block, or at its closer, or behind it
    rcases Nat.lt_or_ge up (inside.strays m) with hin | hin
    · obtain ⟨b, hb, hlen⟩ := ihi hi (o.line :: before) (closer :: (rest.lines ++ tail)) hin
      simp only [List.length_cons] at hlen
      exact ⟨b, hb, by omega⟩
    · rw [findCloser_lines hm hi _ _ hin]
      by_cases hs : o.mac.closing = m.closing
      · cases hleft : up - inside.strays m with
        | zero =>
          rw [findCloser_cons_found hm hc hu hs]
          refine ⟨_, rfl, ?_⟩
          simp only [List.length_reverse, List.length_append, List.length_cons]
          omega
        | succ d =>
          rw [findCloser_cons_closer hm hc hu hs]
          have hrest : d < rest.strays m := by
            by_cases hom : o.mac = m
            · simp only [hom, ne_eq, not_true_eq_false, false_and, if_false, if_true] at hd hup
              omega
            · simp only [hom, hs, ne_eq, not_false_eq_true, and_self, if_false, if_true] at hd hup
              omega
          obtain ⟨b, hb, hlen⟩ := ihr hr _ tail hrest
          refine ⟨b, hb, ?_⟩
          simp only [List.length_reverse, List.length_append, List.length_cons] at hlen
          omega
      · have hom : o.mac ≠ m := fun h => hs (h ▸ rfl)
        simp only [hs, hom, and_false, if_false, Nat.zero_add] at hd hup
        rw [findCloser_cons_other hm hc hu hs]
        obtain ⟨b, hb, hlen⟩ := ihr hr (closer :: (inside.lines.reverse ++ o.line :: before)) tail
          (show up - inside.strays m < rest.strays m by omega)
        refine ⟨b, hb, ?_⟩
        simp only [List.length_reverse, List.length_append, List.length_cons] at hlen
        omega

/-- A search that takes a whole forest for the inside of a block has met no stray block in it. -/
theorem strays_eq_zero_of_findCloser (hm : m ∈ macros) {inside : Forest}
    (hi : inside.Bracketed macros) {tail : List Line} {b : Block}
    (h : findCloser m m.closing 0 [] (inside.lines ++ tail) = some b)
    (hb : b.inside = inside.lines) : inside.strays m = 0 := by
  rcases Nat.eq_zero_or_pos (inside.strays m) with hz | hpos
  · exact hz
  · -- with a stray block the search ends inside
    obtain ⟨b', hb', hlen⟩ := findCloser_stops hm hi [] tail hpos
    obtain rfl := Option.some.inj (h.symm.trans hb')
    rw [hb] at hlen
    simp at hlen

/-- The search from an opener finds the closer of its block exactly if no stray block is inside. -/
theorem findCloser_inside_iff {o : Opening} (ho : o.Clear macros) {inside : Forest}
    (hi : inside.Bracketed macros) {closer : Line} (hc : closes o.mac.closing closer.code = true)
    (hu : ¬ closer.Uses macros) (tail : List Line) :
    findCloser o.mac o.mac.closing 0 [] (inside.lines ++ closer :: tail) =
        some ⟨inside.lines, closer, tail⟩ ↔ inside.strays o.mac = 0 := by
  constructor
  · intro h
    exact strays_eq_zero_of_findCloser ho.mem hi h rfl
  · intro h
    rw [findCloser_lines ho.mem hi _ _ (by omega), h, Nat.sub_zero,
      findCloser_cons_found ho.mem hc hu rfl]
    simp

end Expansion

end MacroAsm
