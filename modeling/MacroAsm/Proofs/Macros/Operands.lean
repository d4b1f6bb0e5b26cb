import MacroAsm.Proofs.Macros.Characters
import MacroAsm.Proofs.Text.Shapes
import Mathlib.Data.List.Forall2

set_option autoImplicit false

/-! # Operands of a use

The operands of a use are of the kinds that the opener of its macro names, one for each and in order
(`Macro.takes_of_use?`): each is a text that the shape of its kind takes. What every character keeps
of a thread is that the operands before its piece are such texts, and that the text of the piece so
far is one as soon as what is left of the shape takes the rest (`Thread.Reads`). -/

namespace MacroAsm

open Text (Shape)

/-- Whether texts are operands of some kinds, one for each and in order. -/
def OperandKind.TakeEach (kinds : List OperandKind) (ws : List (List Char)) : Prop :=
  List.Forall₂ (fun k w => k.shape.Takes w) kinds ws

theorem OperandKind.TakeEach.exists_of_getElem? {kinds : List OperandKind}
    {ws : List (List Char)} (h : OperandKind.TakeEach kinds ws) {i : Nat} {w : List Char}
    (hw : ws[i]? = some w) : ∃ k, kinds[i]? = some k ∧ k.shape.Takes w := by
  induction h generalizing i with
  | nil => cases hw
  | cons hk _ ih =>
    cases i with
    | zero =>
      obtain rfl := Option.some.inj hw
      exact ⟨_, rfl, hk⟩
    | succ i => exact ih hw

/-! ## Kinds of an opener -/

namespace Opener

@[simp] theorem kinds_nil : kinds [] = [] := rfl

@[simp] theorem kinds_operand (k : OperandKind) (o : Opener) :
    kinds (.operand k :: o) = k :: kinds o := rfl

theorem kinds_cons_of_not_isOperand {p : Piece} (h : p.isOperand = false) (o : Opener) :
    kinds (p :: o) = kinds o := by
  cases p with
  | operand k => cases h
  | _ => rfl

end Opener

/-! ## Threads -/

/-- A thread reads operands of some kinds: those in front of its piece have been read, and the text
    of the piece is read as far as it goes. -/
structure Thread.Reads (kinds : List OperandKind) (t : Thread) : Prop where
  operands : ∃ done, kinds = done ++ Opener.kinds (t.piece :: t.behind) ∧
    OperandKind.TakeEach done (t.operands.reverse.map List.reverse)
  text : ∀ cs, Shape.TakesAll t.left cs → t.piece.shape.Takes (t.text.reverse ++ cs)

namespace Thread

variable {kinds : List OperandKind} {t : Thread}

theorem reads_start (piece : Piece) (behind : Opener) (count : Nat) :
    Reads (Opener.kinds (piece :: behind)) ⟨piece, [piece.shape], behind, count, [], []⟩ :=
  ⟨⟨[], rfl, .nil⟩, fun cs h => (Shape.takesAll_singleton _ cs).1 h⟩

/-- When the piece may be left, its text is complete. -/
theorem Reads.completed (ht : t.Reads kinds) (h : t.mayLeave = true) :
    ∃ done, kinds = done ++ Opener.kinds t.behind ∧
      OperandKind.TakeEach done (t.completed.reverse.map List.reverse) := by
  obtain ⟨done, hkinds, hdone⟩ := ht.operands
  have htext := ht.text [] ((Shape.all_mayBeEmpty_iff t.left).1 h)
  rw [List.append_nil] at htext
  unfold Thread.completed
  cases hpiece : t.piece with
  | operand k =>
    rw [hpiece] at hkinds htext
    refine ⟨done ++ [k], ?_, ?_⟩
    · rw [hkinds, Opener.kinds_operand, List.append_assoc, List.singleton_append]
    · rw [Piece.isOperand, if_pos rfl, List.reverse_cons, List.map_append]
      exact List.rel_append hdone (.cons htext .nil)
  | _ =>
    rw [hpiece, Opener.kinds_cons_of_not_isOperand rfl] at hkinds
    exact ⟨done, hkinds, hdone⟩

/-- One more character for the piece that a thread is in. -/
theorem Reads.read (ht : t.Reads kinds) {c : Char} {left : List Shape}
    (h : left ∈ Shape.after c t.left) : Reads kinds { t with left, text := c :: t.text } := by
  refine ⟨ht.operands, fun cs hcs => ?_⟩
  have htaken : Shape.TakesAll t.left (c :: cs) :=
    (Shape.exists_mem_after t.left cs).1 ⟨left, h, hcs⟩
  rw [List.reverse_cons, List.append_assoc, List.singleton_append]
  exact ht.text (c :: cs) htaken

/-- The first character of the next piece. -/
theorem Reads.next (ht : t.Reads kinds) (hleave : t.mayLeave = true) {piece : Piece}
    {behind : Opener} (hbehind : t.behind = piece :: behind) {c : Char} {left : List Shape}
    (h : left ∈ Shape.after c [piece.shape]) (count : Nat) :
    Reads kinds ⟨piece, left, behind, count, [c], t.completed⟩ := by
  refine ⟨hbehind ▸ ht.completed hleave, fun cs hcs => ?_⟩
  exact (Shape.takesAll_singleton _ _).1
    ((Shape.exists_mem_after [piece.shape] cs).1 ⟨left, h, hcs⟩)

theorem Reads.after (ht : t.Reads kinds) {c : Char} {t' : Thread} (h : t' ∈ t.after c) :
    t'.Reads kinds := by
  rcases mem_after_iff.1 h with ⟨left, hleft, rfl⟩ | ⟨hleave, piece, behind, hbehind, left, hleft,
    rfl⟩
  · exact ht.read hleft
  · exact ht.next hleave hbehind hleft _

theorem Reads.finish? (ht : t.Reads kinds) {ws : List (List Char)} (h : t.finish? = some ws) :
    OperandKind.TakeEach kinds ws := by
  obtain ⟨⟨hbehind, hleave⟩, rfl⟩ := finish?_eq_some_iff.1 h
  obtain ⟨done, rfl, hdone⟩ := ht.completed hleave
  rw [hbehind, Opener.kinds_nil, List.append_nil]
  exact hdone

end Thread

/-! ## Uses -/

/-- What is matched for the operands of an opener are texts of their kinds. -/
theorem Opener.takes_of_matchTrimmed? {o : Opener} {cs : List Char} {ws : List (List Char)}
    (h : matchTrimmed? o cs = some ws) : OperandKind.TakeEach o.kinds ws := by
  induction o generalizing cs with
  | nil =>
    unfold matchTrimmed? at h
    split at h
    · obtain rfl := Option.some.inj h
      exact .nil
    · cases h
  | cons piece behind ih =>
    have hfollow (h : follow ⟨piece, [piece.shape], behind, behind.length, [], []⟩ [] [] cs =
        some ws) : OperandKind.TakeEach (kinds (piece :: behind)) ws := by
      obtain ⟨t, ht, hfinish⟩ := exists_of_follow
        (I := Thread.Reads (kinds (piece :: behind))) (fun _ _ _ _ hu hv => hu.after hv)
        (Thread.reads_start piece behind behind.length) (List.forall_mem_nil _) h
      exact ht.finish? hfinish
    cases piece with
    | char c =>
      cases cs with
      | nil => cases h
      | cons d cs =>
        rw [matchTrimmed?] at h
        split at h
        · exact ih h
        · cases h
    | gap => exact hfollow (by simpa only [matchTrimmed?] using h)
    | comma => exact hfollow (by simpa only [matchTrimmed?] using h)
    | operand k => exact hfollow (by simpa only [matchTrimmed?] using h)

/-- **The operands of a use are of the kinds of its macro**, one for each and in order. -/
theorem Macro.takes_of_use? {macros : List Macro} {code : String} {m : Macro} {args : List String}
    (h : use? macros code = some (m, args)) :
    OperandKind.TakeEach m.kinds (args.map String.toList) := by
  obtain ⟨n, -, hmatch⟩ := List.exists_of_findSome?_eq_some h
  obtain ⟨ws, hws, heq⟩ := Option.map_eq_some_iff.1 hmatch
  obtain ⟨rfl, rfl⟩ := Prod.mk.inj heq
  have hargs : (ws.map String.ofList).map String.toList = ws := by simp
  rw [hargs]
  exact Opener.takes_of_matchTrimmed? hws

end MacroAsm
