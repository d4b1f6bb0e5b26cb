import MacroAsm.Proofs.Macros.Nonempty
import MacroAsm.Proofs.Text.Shapes

set_option autoImplicit false

/-! # What openers match

What an opener takes can be said without threads: each piece takes a text of its shape, one behind
the other, and the texts that operands take are the operands of the use (`Opener.Takes`). Reading
character by character finds these texts and no others: what is matched is such a way to cut the
line (`Opener.takes_operands_of_matchTrimmed?`), and a line that can be cut so is matched
(`Opener.exists_matchTrimmed?`). Both follow from what one character leaves of a thread
(`Thread.yields_cons`). Threads that are dropped had the same before them as one that is kept, so
none of the texts that can be read is lost. -/

namespace MacroAsm

open Text (Shape)

/-! ## The texts of an opener -/

/-- Operands behind a piece that takes a text: the text is one of them if the piece is an operand.
    -/
def Piece.operands (p : Piece) (w : List Char) (ws : List (List Char)) : List (List Char) :=
  if p.isOperand then w :: ws else ws

/-- Whether an opener takes a text, with some operands. -/
def Opener.Takes : Opener → List (List Char) → List Char → Prop
  | [], ws, cs => ws = [] ∧ cs = []
  | p :: o, ws, cs => ∃ w rest ws', cs = w ++ rest ∧ p.shape.Takes w ∧ ws = p.operands w ws' ∧
    Opener.Takes o ws' rest

theorem Piece.ne_nil_of_takes {p : Piece} {w : List Char} (h : p.shape.Takes w) : w ≠ [] := by
  rintro rfl
  have hempty := (Shape.mayBeEmpty_iff _).2 h
  rw [p.mayBeEmpty_shape] at hempty
  cases hempty

/-- Only the opener without pieces takes the empty text. -/
theorem Opener.takes_nil_iff {o : Opener} {ws : List (List Char)} :
    o.Takes ws [] ↔ o = [] ∧ ws = [] := by
  cases o with
  | nil => simp [Takes]
  | cons p o =>
    refine iff_of_false ?_ (by simp)
    rintro ⟨w, rest, ws', heq, hw, -⟩
    exact Piece.ne_nil_of_takes hw (List.append_eq_nil_iff.1 heq.symm).1

/-! ## Threads -/

namespace Thread

/-- The operands of a thread when its piece goes on with a text and others are behind. -/
def withOperands (t : Thread) (u : List Char) (ws : List (List Char)) : List (List Char) :=
  t.operands.reverse.map List.reverse ++ t.piece.operands (t.text.reverse ++ u) ws

/-- Whether a thread may read a text to its end, with some operands of the whole line. -/
def Yields (t : Thread) (cs : List Char) (ws : List (List Char)) : Prop :=
  ∃ u rest ws', cs = u ++ rest ∧ Shape.TakesAll t.left u ∧ t.behind.Takes ws' rest ∧
    ws = t.withOperands u ws'

variable {t : Thread} {c : Char} {cs : List Char} {ws : List (List Char)}

theorem completed_append (t : Thread) (ws : List (List Char)) :
    t.completed.reverse.map List.reverse ++ ws = t.withOperands [] ws := by
  unfold completed withOperands Piece.operands
  split
  · simp
  · rfl

/-- A character goes on with the piece, or the piece is complete and it begins the next one. -/
theorem yields_cons : t.Yields (c :: cs) ws ↔ ∃ t' ∈ t.after c, t'.Yields cs ws := by
  constructor
  · rintro ⟨u, rest, ws', heq, hu, hbehind, rfl⟩
    cases u with
    | cons d u =>
      obtain ⟨rfl, rfl⟩ := List.cons_eq_cons.1 heq
      obtain ⟨left, hleft, hu⟩ := (Shape.exists_mem_after t.left u).2 hu
      refine ⟨_, mem_after_iff.2 (.inl ⟨left, hleft, rfl⟩), u, rest, ws', rfl, hu, hbehind, ?_⟩
      simp [withOperands]
    | nil =>
      have hleave : t.mayLeave = true := (Shape.all_mayBeEmpty_iff t.left).2 hu
      cases hpieces : t.behind with
      | nil =>
        rw [hpieces] at hbehind
        exact absurd (heq.trans hbehind.2) (List.cons_ne_nil c cs)
      | cons piece behind =>
        rw [hpieces] at hbehind
        obtain ⟨w, rest', ws'', rfl, hw, rfl, hrest⟩ := hbehind
        obtain ⟨d, w, rfl⟩ := List.exists_cons_of_ne_nil (Piece.ne_nil_of_takes hw)
        obtain ⟨rfl, rfl⟩ := List.cons_eq_cons.1 heq
        obtain ⟨left, hleft, hu⟩ := (Shape.exists_mem_after [piece.shape] w).2
          ((Shape.takesAll_singleton _ _).2 hw)
        refine ⟨_, mem_after_iff.2 (.inr ⟨hleave, piece, behind, hpieces, left, hleft, rfl⟩),
          w, rest', ws'', rfl, hu, hrest, ?_⟩
        rw [← completed_append]
        rfl
  · rintro ⟨t', ht', u, rest, ws', rfl, hu, hbehind, rfl⟩
    rcases mem_after_iff.1 ht' with ⟨left, hleft, rfl⟩ | ⟨hleave, piece, behind, hpieces, left,
      hleft, rfl⟩
    · refine ⟨c :: u, rest, ws', rfl, (Shape.exists_mem_after t.left u).1 ⟨left, hleft, hu⟩,
        hbehind, ?_⟩
      simp [withOperands]
    · have hw : piece.shape.Takes (c :: u) :=
        (Shape.takesAll_singleton _ _).1 ((Shape.exists_mem_after _ u).1 ⟨left, hleft, hu⟩)
      refine ⟨[], c :: (u ++ rest), piece.operands (c :: u) ws', rfl,
        (Shape.all_mayBeEmpty_iff t.left).1 hleave, ?_, ?_⟩
      · rw [hpieces]
        exact ⟨c :: u, rest, ws', rfl, hw, rfl, hbehind⟩
      · rw [← completed_append]
        rfl

/-- At the end of a line the piece must be complete, and none may be behind it. -/
theorem yields_nil : t.Yields [] ws ↔ t.finish? = some ws := by
  rw [finish?_eq_some_iff, ← List.append_nil (List.map _ _), completed_append]
  constructor
  · rintro ⟨u, rest, ws', heq, hu, hbehind, rfl⟩
    obtain ⟨rfl, rfl⟩ := List.append_eq_nil_iff.1 heq.symm
    obtain ⟨hpieces, rfl⟩ := Opener.takes_nil_iff.1 hbehind
    exact ⟨⟨hpieces, (Shape.all_mayBeEmpty_iff t.left).2 hu⟩, rfl⟩
  · rintro ⟨⟨hpieces, hleave⟩, rfl⟩
    exact ⟨[], [], [], rfl, (Shape.all_mayBeEmpty_iff t.left).1 hleave, hpieces ▸ ⟨rfl, rfl⟩, rfl⟩

/-- A thread at the beginning of a line may read what its opener takes. -/
theorem yields_start (piece : Piece) (behind : Opener) (count : Nat) :
    Yields ⟨piece, [piece.shape], behind, count, [], []⟩ cs ws ↔
      Opener.Takes (piece :: behind) ws cs := by
  constructor
  · rintro ⟨u, rest, ws', heq, hu, hbehind, rfl⟩
    exact ⟨u, rest, ws', heq, (Shape.takesAll_singleton _ u).1 hu, rfl, hbehind⟩
  · rintro ⟨w, rest, ws', heq, hw, rfl, hbehind⟩
    exact ⟨w, rest, ws', heq, (Shape.takesAll_singleton _ w).2 hw, hbehind, rfl⟩

/-! ## Dropped threads -/

/-- The pieces behind a thread are the last ones of an opener, and they are counted. -/
structure Counts (o : Opener) (t : Thread) : Prop where
  suffix : t.behind <:+ o
  count : t.count = t.behind.length

variable {o : Opener} {t' : Thread}

theorem Counts.after (ht : t.Counts o) (h : t' ∈ t.after c) : t'.Counts o := by
  rcases mem_after_iff.1 h with ⟨left, -, rfl⟩ | ⟨-, piece, behind, hpieces, left, -, rfl⟩
  · exact ⟨ht.suffix, ht.count⟩
  · have hcount := ht.count
    rw [hpieces, List.length_cons] at hcount
    exact ⟨(List.suffix_cons piece behind).trans (hpieces ▸ ht.suffix), Nat.sub_eq_of_eq_add hcount⟩

/-- What threads may read depends on what they have before them. -/
theorem Yields.of_alike (h : t.Yields cs ws) (ht : t.Counts o) (ht' : t'.Counts o)
    (hcount : t'.count = t.count) (hleft : t'.left = t.left) : ∃ ws', t'.Yields cs ws' := by
  have hbehind : t'.behind = t.behind := by
    rw [ht.count, ht'.count] at hcount
    exact (List.suffix_of_suffix_length_le ht'.suffix ht.suffix (Nat.le_of_eq hcount)).eq_of_length
      hcount
  obtain ⟨u, rest, ws', heq, hu, hrest, -⟩ := h
  exact ⟨_, u, rest, ws', heq, hleft ▸ hu, hbehind ▸ hrest, rfl⟩

end Thread

namespace Opener

/-- What is before the threads that are kept is known to be so. -/
def Recorded (kept : List Thread × Ahead) : Prop :=
  ∀ count, ∀ left ∈ kept.2[count]?.getD [], ∃ t ∈ kept.1, t.count = count ∧ t.left = left

variable {kept : List Thread × Ahead} {t : Thread} {ts : List Thread}

/-- A thread is kept, or one that has the same before it was. -/
theorem exists_mem_keep (h : Recorded kept) (t : Thread) :
    Recorded (keep kept t) ∧ (∀ u ∈ kept.1, u ∈ (keep kept t).1) ∧
      ∃ u ∈ (keep kept t).1, u.count = t.count ∧ u.left = t.left := by
  unfold keep
  dsimp only
  split
  · next hmem =>
    exact ⟨h, fun _ hu => hu, h t.count t.left (List.contains_iff_mem.1 hmem)⟩
  · refine ⟨fun count left hleft => ?_, fun u hu => List.mem_cons_of_mem t hu,
      t, List.mem_cons_self, rfl, rfl⟩
    have hold (hleft : left ∈ kept.2[count]?.getD []) :
        ∃ u ∈ t :: kept.1, u.count = count ∧ u.left = left := by
      obtain ⟨u, hu, hsame⟩ := h count left hleft
      exact ⟨u, List.mem_cons_of_mem t hu, hsame⟩
    rw [Std.TreeMap.getElem?_insert] at hleft
    split at hleft
    · next heq =>
      obtain rfl := Std.LawfulEqCmp.compare_eq_iff_eq.1 heq
      rcases List.mem_cons.1 hleft with rfl | hleft
      · exact ⟨t, List.mem_cons_self, rfl, rfl⟩
      · exact hold hleft
    · exact hold hleft

/-- Of the threads that have the same before them one is kept. -/
theorem exists_mem_distinct (ht : t ∈ ts) :
    ∃ u ∈ distinct ts, u.count = t.count ∧ u.left = t.left := by
  have hfold : ∀ (us : List Thread) (kept : List Thread × Ahead), Recorded kept →
      (∀ u ∈ kept.1, u ∈ (us.foldl keep kept).1) ∧
        (t ∈ us → ∃ u ∈ (us.foldl keep kept).1, u.count = t.count ∧ u.left = t.left) := by
    intro us
    induction us with
    | nil => exact fun kept _ => ⟨fun _ hu => hu, fun h => absurd h List.not_mem_nil⟩
    | cons v us ih =>
      intro kept hkept
      obtain ⟨hrecorded, hold, u, hu, hsame⟩ := exists_mem_keep hkept v
      obtain ⟨hkeeps, hmem⟩ := ih _ hrecorded
      refine ⟨fun u hu => hkeeps u (hold u hu), fun h => ?_⟩
      rcases List.mem_cons.1 h with rfl | h
      · exact ⟨u, hkeeps u hu, hsame⟩
      · exact hmem h
  unfold distinct
  split
  · exact absurd ht List.not_mem_nil
  · exact ⟨t, ht, rfl, rfl⟩
  · obtain ⟨u, hu, hsame⟩ := (hfold ts ([], ∅) (by simp [Recorded])).2 ht
    exact ⟨u, List.mem_reverse.2 hu, hsame⟩

/-! ## Whole lines -/

variable {o : Opener} {text : List Char} {others : List Thread} {cs : List Char}
  {ws : List (List Char)}

/-- What is read by following threads may be read by one of them. -/
theorem yields_of_follow (h : follow t text others cs = some ws) :
    ∃ u ∈ { t with text } :: others, u.Yields cs ws := by
  induction cs generalizing t text others with
  | nil =>
    rw [follow] at h
    obtain ⟨u, hu, hfinish⟩ := List.exists_of_findSome?_eq_some h
    exact ⟨u, hu, Thread.yields_nil.2 hfinish⟩
  | cons c cs ih =>
    rw [follow] at h
    split at h
    · next hstays =>
      obtain ⟨hothers, hstays⟩ := Bool.and_eq_true_iff.1 hstays
      obtain rfl := List.isEmpty_iff.1 hothers
      obtain ⟨u, hu, hyields⟩ := ih h
      obtain rfl := List.mem_singleton.1 hu
      refine ⟨_, List.mem_singleton_self _, Thread.yields_cons.2 ⟨_, ?_, hyields⟩⟩
      rw [Thread.after_of_stays (t := { t with text }) hstays]
      exact List.mem_singleton_self _
    · split at h
      · cases h
      · next u us hstep =>
        obtain ⟨v, hv, hyields⟩ := ih h
        rw [← hstep, step_eq] at hv
        obtain ⟨v', hv', hafter⟩ := List.mem_flatMap.1 (mem_of_mem_distinct hv)
        exact ⟨v', hv', Thread.yields_cons.2 ⟨v, hafter, hyields⟩⟩

/-- Following threads finds a way to read a line if one of them may read it. -/
theorem exists_follow (hcounts : ∀ u ∈ { t with text } :: others, u.Counts o)
    (h : ∃ u ∈ { t with text } :: others, ∃ ws, u.Yields cs ws) :
    ∃ ws, follow t text others cs = some ws := by
  induction cs generalizing t text others with
  | nil =>
    obtain ⟨u, hu, ws, hyields⟩ := h
    rw [follow, ← Option.isSome_iff_exists, List.findSome?_isSome_iff]
    exact ⟨u, hu, by rw [Thread.yields_nil.1 hyields]; rfl⟩
  | cons c cs ih =>
    obtain ⟨u, hu, ws, hyields⟩ := h
    obtain ⟨v, hv, hyields⟩ := Thread.yields_cons.1 hyields
    have hafter : ∀ x ∈ ({ t with text } :: others).flatMap (Thread.after c), x.Counts o := by
      intro x hx
      obtain ⟨y, hy, hx⟩ := List.mem_flatMap.1 hx
      exact (hcounts y hy).after hx
    rw [follow]
    split
    · next hstays =>
      obtain ⟨hothers, hstays⟩ := Bool.and_eq_true_iff.1 hstays
      obtain rfl := List.isEmpty_iff.1 hothers
      have hone := Thread.after_of_stays (t := { t with text }) hstays
      refine ih (fun x hx => hafter x ?_) ⟨v, ?_, ws, hyields⟩
      · simpa [hone] using hx
      · obtain rfl := List.mem_singleton.1 hu
        rwa [hone] at hv
    · -- the thread itself may be dropped, but not what may be read
      have hmem : v ∈ ({ t with text } :: others).flatMap (Thread.after c) :=
        List.mem_flatMap.2 ⟨u, hu, hv⟩
      obtain ⟨x, hx, hcount, hleft⟩ := exists_mem_distinct hmem
      have hdistinct : ∀ y ∈ step c ({ t with text } :: others), y.Counts o := by
        intro y hy
        rw [step_eq] at hy
        exact hafter y (mem_of_mem_distinct hy)
      rw [← step_eq] at hx
      obtain ⟨ws', hyields'⟩ := hyields.of_alike (hafter v hmem) (hdistinct x hx) hcount hleft
      split
      · next hnone =>
        rw [hnone] at hx
        cases hx
      · next y ys hstep =>
        rw [hstep] at hdistinct hx
        exact ih hdistinct ⟨x, hx, ws', hyields'⟩

/-- Behind a piece that leaves a choice the line is read by threads. -/
theorem matchTrimmed?_cons {piece : Piece} (hpiece : ∀ c, piece ≠ .char c) (behind : Opener)
    (cs : List Char) : matchTrimmed? (piece :: behind) cs =
      follow ⟨piece, [piece.shape], behind, behind.length, [], []⟩ [] [] cs := by
  rw [matchTrimmed?]
  · exact fun c _ => hpiece c
  · exact fun c _ _ _ => hpiece c

/-- A character in front takes itself. -/
theorem takes_char_iff {c : Char} {behind : Opener} :
    Takes (.char c :: behind) ws cs ↔ ∃ rest, cs = c :: rest ∧ behind.Takes ws rest := by
  constructor
  · rintro ⟨_, rest, ws', rfl, rfl, rfl, hrest⟩
    exact ⟨rest, rfl, hrest⟩
  · rintro ⟨rest, rfl, hrest⟩
    exact ⟨[c], rest, ws, rfl, rfl, rfl, hrest⟩

/-- What is matched is a way to cut the line: each piece takes its part. -/
theorem takes_operands_of_matchTrimmed? (h : matchTrimmed? o cs = some ws) : o.Takes ws cs := by
  induction o generalizing cs with
  | nil =>
    unfold matchTrimmed? at h
    split at h
    · next hempty => exact ⟨(Option.some.inj h).symm, List.isEmpty_iff.1 hempty⟩
    · cases h
  | cons piece behind ih =>
    by_cases hpiece : ∃ c, piece = .char c
    · obtain ⟨c, rfl⟩ := hpiece
      cases cs with
      | nil => cases h
      | cons d cs =>
        rw [matchTrimmed?] at h
        split at h
        · next hc =>
          subst hc
          exact takes_char_iff.2 ⟨cs, rfl, ih h⟩
        · cases h
    · rw [matchTrimmed?_cons fun c hc => hpiece ⟨c, hc⟩] at h
      obtain ⟨u, hu, hyields⟩ := yields_of_follow h
      obtain rfl := List.mem_singleton.1 hu
      exact (Thread.yields_start piece behind behind.length).1 hyields

/-- A line that can be cut so is matched. -/
theorem exists_matchTrimmed? (h : o.Takes ws cs) : ∃ ws', matchTrimmed? o cs = some ws' := by
  induction o generalizing cs with
  | nil =>
    obtain ⟨rfl, rfl⟩ := h
    exact ⟨[], rfl⟩
  | cons piece behind ih =>
    by_cases hpiece : ∃ c, piece = .char c
    · obtain ⟨c, rfl⟩ := hpiece
      obtain ⟨rest, rfl, hrest⟩ := takes_char_iff.1 h
      obtain ⟨ws', hws'⟩ := ih hrest
      exact ⟨ws', by rw [matchTrimmed?, if_pos rfl, hws']⟩
    · rw [matchTrimmed?_cons fun c hc => hpiece ⟨c, hc⟩]
      have hyields := (Thread.yields_start piece behind behind.length).2 h
      refine exists_follow (o := behind) (fun u hu => ?_)
        ⟨_, List.mem_singleton_self _, ws, hyields⟩
      obtain rfl := List.mem_singleton.1 hu
      exact ⟨List.suffix_rfl, rfl⟩

end Opener

end MacroAsm
