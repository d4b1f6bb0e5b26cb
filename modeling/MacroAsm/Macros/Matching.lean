import MacroAsm.Macros.Opener
import Std.Data.TreeMap.Lemmas

set_option autoImplicit false

/-! # Matching openers

A line of code is a use of a macro if all of it, blanks at its ends left aside, can be cut into texts
that the pieces of the opener take. There may be several ways to cut it, and what an operand can take
depends on the pieces behind it. All ways are therefore followed at once, character by character, as
threads; the order of the threads tells which way is preferred. Of two threads that have the same
before them only the preferred one is kept, so their number is limited by the opener, and the time is
proportional to the length of the line.

Most lines leave a single thread most of the time, and most characters only prolong what it repeats.
`Thread.stays` tells such characters at a glance. -/

namespace MacroAsm

open Text (Shape)

/-- A way to read the beginning of a line: the piece that is being read and what is left of its
    shape, the pieces behind it and their number, the text of the piece so far, and the operands before
    it, last one first; each text is given last character first. -/
structure Thread where
  piece : Piece
  left : List Shape
  behind : Opener
  count : Nat
  text : List Char
  operands : List (List Char)

namespace Thread

/-- Whether nothing needs to be left of the piece. -/
def mayLeave (t : Thread) : Bool :=
  t.left.all (·.mayBeEmpty)

/-- The operands read when the piece is complete, last one first. -/
def completed (t : Thread) : List (List Char) :=
  if t.piece.isOperand then t.text :: t.operands else t.operands

/-- Read one more character: either as part of the piece, or as the first one of the next piece. -/
def after (c : Char) (t : Thread) : List Thread :=
  let stay := (Shape.after c t.left).map fun left => { t with left, text := c :: t.text }
  match t.behind with
  | [] => stay
  | piece :: behind =>
    if t.mayLeave then
      stay ++ (Shape.after c [piece.shape]).map fun left =>
        ⟨piece, left, behind, t.count - 1, [c], t.completed⟩
    else stay

/-- What a thread becomes: it goes on with its piece, or it leaves the piece for the next one. -/
theorem mem_after_iff {t t' : Thread} {c : Char} : t' ∈ t.after c ↔
    (∃ left ∈ Shape.after c t.left, t' = { t with left, text := c :: t.text }) ∨
    t.mayLeave = true ∧ ∃ piece behind, t.behind = piece :: behind ∧
      ∃ left ∈ Shape.after c [piece.shape],
        t' = ⟨piece, left, behind, t.count - 1, [c], t.completed⟩ := by
  have hmap (f : List Shape → Thread) (lefts : List (List Shape)) :
      t' ∈ lefts.map f ↔ ∃ left ∈ lefts, t' = f left := by
    simp only [List.mem_map, eq_comm]
  unfold after
  cases hbehind : t.behind with
  | nil => simp [hmap]
  | cons piece behind =>
    by_cases hleave : t.mayLeave = true
    · simp only [hleave, if_true, List.mem_append, hmap, true_and]
      refine or_congr_right ⟨fun h => ⟨piece, behind, rfl, h⟩, ?_⟩
      rintro ⟨_, _, heq, h⟩
      obtain ⟨rfl, rfl⟩ := List.cons.inj heq
      exact h
    · simp [hleave, hmap]

/-- Whether the only way to read a character is to repeat once more what is being repeated. -/
def stays (c : Char) (t : @& Thread) : Bool :=
  match t.left, t.behind with
  | [.many s], [] => s.has c
  | [.many s], next :: _ => s.has c && !next.begins c
  | .many s :: more, _ => s.has c && !more.all (·.mayBeEmpty) && (Shape.after c more).isEmpty
  | _, _ => false

theorem after_of_stays {c : Char} {t : Thread} (h : t.stays c = true) :
    t.after c = [{ t with text := c :: t.text }] := by
  obtain ⟨piece, left, behind, count, text, operands⟩ := t
  unfold stays at h
  split at h
  · simp_all [after, Shape.after, Shape.afterFirst]
  · next next rest hl hb =>
    simp only at hl hb
    subst hl hb
    simp only [Bool.and_eq_true, Bool.not_eq_true'] at h
    have hn := Piece.after_eq_nil_of_not_begins h.2
    simp only [Shape.after] at hn
    simp [after, Shape.after, Shape.afterFirst, h.1, hn]
  · next s more hl _ _ =>
    simp only at hl
    subst hl
    simp only [Bool.and_eq_true, Bool.not_eq_true', List.isEmpty_iff] at h
    obtain ⟨⟨hs, hm⟩, he⟩ := h
    cases behind <;>
      simp [after, mayLeave, Shape.after, Shape.afterFirst, Shape.mayBeEmpty, hs, hm, he]
  · simp at h

/-- The operands in order, if the line may end here. -/
def finish? (t : Thread) : Option (List (List Char)) :=
  if t.behind.isEmpty && t.mayLeave then some (t.completed.reverse.map List.reverse) else none

theorem finish?_eq_some_iff {t : Thread} {ws : List (List Char)} : t.finish? = some ws ↔
    (t.behind = [] ∧ t.mayLeave = true) ∧ t.completed.reverse.map List.reverse = ws := by
  simp [finish?]

end Thread

/-- What some threads have before them: what may be left of a piece, by the number of pieces behind
    it. -/
abbrev Ahead := Std.TreeMap Nat (List (List Shape))

namespace Opener

/-- Keep a thread unless another one has the same before it. -/
def keep (kept : List Thread × Ahead) (t : Thread) : List Thread × Ahead :=
  let lefts := kept.2[t.count]?.getD []
  if lefts.contains t.left then kept
  else (t :: kept.1, kept.2.insert t.count (t.left :: lefts))

/-- Threads without those that have the same before them as an earlier one. -/
def distinct (ts : List Thread) : List Thread :=
  match ts with
  | [] => []
  | [t] => [t]
  | ts => (ts.foldl keep ([], ∅)).1.reverse

/-- The threads that some threads become when they read a character. -/
def step (c : Char) : List Thread → List Thread
  | [t] => distinct (t.after c)
  | ts => distinct (ts.flatMap (Thread.after c))

theorem step_eq (c : Char) (ts : List Thread) :
    step c ts = distinct (ts.flatMap (Thread.after c)) := by
  unfold step
  split <;> simp

/-- Read the rest of a line, given the preferred thread and the text of its piece apart from it. -/
def follow (t : Thread) (text : List Char) (others : List Thread) :
    List Char → Option (List (List Char))
  | [] => ({ t with text } :: others).findSome? Thread.finish?
  | c :: cs =>
    if others.isEmpty && t.stays c then follow t (c :: text) others cs
    else match step c ({ t with text } :: others) with
      | [] => none
      | t :: others => follow t t.text others cs

/-- The operands of a trimmed line that is a use of a macro with this opener. The characters in front
    leave no choice. -/
def matchTrimmed? : Opener → List Char → Option (List (List Char))
  | [], cs => if cs.isEmpty then some [] else none
  | .char _ :: _, [] => none
  | .char c :: behind, d :: cs => if c = d then matchTrimmed? behind cs else none
  | piece :: behind, cs => follow ⟨piece, [piece.shape], behind, behind.length, [], []⟩ [] [] cs

/-- The operands of a line that is a use of a macro with this opener. -/
def match? (o : Opener) (cs : List Char) : Option (List String) :=
  (o.matchTrimmed? (Text.trim cs)).map (List.map String.ofList)

end Opener

end MacroAsm
