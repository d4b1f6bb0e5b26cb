import MacroAsm.Compilation
import MacroAsm.Proofs.Macros.Characters
import MacroAsm.Proofs.Text.Spacing

set_option autoImplicit false

/-! # Openers, operands and closers are not empty

No piece of an opener takes the empty text, so no empty line uses a macro, and no operand of a use is
empty. A macro that wraps a block was read with a closer that has a character other than a blank;
what this closer is filled to is not empty either, so no empty line closes a block. -/

namespace MacroAsm

/-! ## Pieces -/

theorem Piece.mayBeEmpty_shape (p : Piece) : p.shape.mayBeEmpty = false := by
  cases p with
  | char c => rfl
  | gap => rfl
  | comma => rfl
  | operand k => cases k <;> rfl

/-! ## Operands -/

/-- A thread that has read nothing of its piece has all of it left, and the operands before are not
    empty. -/
structure Thread.Started (t : Thread) : Prop where
  left : t.text = [] → t.left = [t.piece.shape]
  operands : ∀ w ∈ t.operands, w ≠ []

namespace Thread

variable {t : Thread}

theorem Started.text_ne_nil (ht : t.Started) (h : t.mayLeave = true) : t.text ≠ [] := by
  intro htext
  rw [mayLeave, ht.left htext] at h
  simp [Piece.mayBeEmpty_shape] at h

theorem Started.completed (ht : t.Started) (h : t.mayLeave = true) :
    ∀ w ∈ t.completed, w ≠ [] := by
  intro w hw
  unfold Thread.completed at hw
  split at hw
  · rcases List.mem_cons.1 hw with rfl | hw
    · exact ht.text_ne_nil h
    · exact ht.operands w hw
  · exact ht.operands w hw

theorem Started.read (ht : t.Started) (c : Char) (left : List Text.Shape) (text : List Char) :
    Started { t with left, text := c :: text } :=
  ⟨fun h => absurd h (List.cons_ne_nil _ _), ht.operands⟩

theorem Started.after (ht : t.Started) {c : Char} {t' : Thread} (h : t' ∈ t.after c) :
    t'.Started := by
  rcases mem_after_iff.1 h with ⟨left, -, rfl⟩ | ⟨hleave, piece, behind, -, left, -, rfl⟩
  · exact ht.read c left t.text
  · exact ⟨fun h => absurd h (List.cons_ne_nil _ _), ht.completed hleave⟩

theorem Started.finish? (ht : t.Started) {ws : List (List Char)} (h : t.finish? = some ws) :
    ∀ w ∈ ws, w ≠ [] := by
  obtain ⟨⟨-, hleave⟩, rfl⟩ := finish?_eq_some_iff.1 h
  intro w hw
  obtain ⟨v, hv, rfl⟩ := List.mem_map.1 hw
  exact mt List.reverse_eq_nil_iff.1 (ht.completed hleave v (List.mem_reverse.1 hv))

end Thread

namespace Opener

/-- No operand of a use is empty. -/
theorem ne_nil_of_matchTrimmed? {o : Opener} {cs : List Char} {ws : List (List Char)}
    (h : matchTrimmed? o cs = some ws) : ∀ w ∈ ws, w ≠ [] := by
  rcases exists_of_matchTrimmed? (I := Thread.Started) (fun _ _ _ => ⟨fun _ => rfl, by simp⟩)
    (fun _ _ u v hu hv => hu.after hv) h with rfl | ⟨u, hu, hfinish⟩
  · simp
  · exact hu.finish? hfinish

/-- The empty text is no use of a macro. -/
theorem matchTrimmed?_nil {o : Opener} (ho : o ≠ []) : matchTrimmed? o [] = none := by
  have hfollow (piece : Piece) (behind : Opener) :
      follow ⟨piece, [piece.shape], behind, behind.length, [], []⟩ [] [] [] = none := by
    simp [follow, Thread.finish?, Thread.mayLeave, Piece.mayBeEmpty_shape]
  cases o with
  | nil => exact absurd rfl ho
  | cons piece behind =>
    cases piece with
    | char c => rfl
    | gap => exact hfollow .gap behind
    | comma => exact hfollow .comma behind
    | operand k => exact hfollow (.operand k) behind

end Opener

theorem Macro.ne_empty_of_use? {macros : List Macro} {code : String} {m : Macro}
    {args : List String} (h : use? macros code = some (m, args)) : ∀ a ∈ args, a ≠ "" := by
  obtain ⟨n, -, hmatch⟩ := List.exists_of_findSome?_eq_some h
  obtain ⟨ws, hws, heq⟩ := Option.map_eq_some_iff.1 hmatch
  obtain ⟨rfl, rfl⟩ := Prod.mk.inj heq
  intro a ha hempty
  obtain ⟨w, hw, rfl⟩ := List.mem_map.1 ha
  refine Opener.ne_nil_of_matchTrimmed? hws w hw ?_
  simpa using congrArg String.toList hempty

/-! ## Filled lines -/

/-- What fills a placeholder is not empty. -/
theorem Placeholder.value?_ne_empty {args : List String} (hargs : ∀ a ∈ args, a ≠ "") {uid : Nat}
    {p : Placeholder} (h : missing? args p = none) : (value? args uid p).getD "" ≠ "" := by
  cases p with
  | uid =>
    intro hempty
    have hdigits := congrArg String.toList hempty
    simp [value?] at hdigits
  | argument digits =>
    simp only [missing?] at h
    split at h
    · next hsome =>
      obtain ⟨a, ha⟩ := Option.isSome_iff_exists.1 hsome
      rw [value?, ha, Option.getD_some]
      unfold argument? at ha
      split at ha
      · exact hargs a (List.mem_of_getElem? ha)
      · simp at ha
    · simp at h

/-- A line that is not empty is filled to one that is not empty. -/
theorem Placeholder.fill_ne_empty {line s : String} {args : List String} {uid : Nat}
    (hline : line ≠ "") (hargs : ∀ a ∈ args, a ≠ "") (h : fill line args uid = .ok s) : s ≠ "" := by
  obtain ⟨hmissing, rfl⟩ := fill_eq_ok_iff.1 h
  intro hempty
  have hfill := congrArg String.toList hempty
  rw [Text.Cut.toList_fillText] at hfill
  obtain ⟨hlead, hrest⟩ := List.append_eq_nil_iff.1 hfill
  cases htokens : (cut line).rest with
  | nil =>
    -- without a placeholder the line is left as it is
    have hsame : (cut line).lead = line.toList := Text.Cut.lead_eq_of_rest_eq_nil htokens
    rw [hsame] at hlead
    exact hline (String.toList_eq_nil_iff.1 hlead)
  | cons p rest =>
    rw [htokens, List.flatMap_cons] at hrest
    have hvalue := (List.append_eq_nil_iff.1 (List.append_eq_nil_iff.1 hrest).1).1
    rw [Text.Cut.tokens, htokens, List.map_cons] at hmissing
    have hp := hmissing p.1 List.mem_cons_self
    exact value?_ne_empty hargs hp (String.toList_eq_nil_iff.1 hvalue)

/-! ## Macros -/

/-- An opener that is not empty, and a closer that is not empty where the macro wraps a block. -/
structure Macro.Marked (m : Macro) : Prop where
  opener : m.opener ≠ []
  closer : m.wraps = true → ∃ c, m.closer = some c ∧ c ≠ ""

theorem Opener.ne_nil_of_ofChars {cs : List Char} {o : Opener} (hcs : cs ≠ [])
    (h : ofChars cs = .ok o) : o ≠ [] := by
  unfold ofChars at h
  dsimp only at h
  split at h
  · next parts hparts =>
    obtain rfl := Except.ok.inj h
    intro hnil
    obtain ⟨hlead, hflatten⟩ := List.append_eq_nil_iff.1 hnil
    have hlead' := List.map_eq_nil_iff.1 hlead
    cases hrest : (Text.Cut.ofChars '%' readToken? cs).rest with
    | nil =>
      -- without a token all of the text is in front
      rw [Text.Cut.lead_eq_of_rest_eq_nil hrest] at hlead'
      exact hcs hlead'
    | cons p rest =>
      rw [hrest, mapM_eq_ok_iff] at hparts
      cases parts with
      | nil => simp at hparts
      | cons part parts =>
        have hpart := List.head_eq_of_cons_eq hparts
        have hempty : part = [] := List.flatten_eq_nil_iff.1 hflatten part List.mem_cons_self
        unfold ofToken at hpart
        split at hpart
        · obtain rfl := Except.ok.inj hpart
          simp at hempty
        · simp at hpart
  · simp at h

theorem Macro.marked_of_ofParts {opener closer : String} {top bottom : List String} {wraps : Bool}
    (hcloser : wraps = true → ∃ c ∈ closer.toList, Text.isBlank c = false) {m : Macro}
    (h : ofParts opener (if closer.isEmpty then none else some closer) top bottom wraps = .ok m) :
    m.Marked := by
  obtain ⟨hname, o, ho, rfl⟩ := ofParts_eq_ok h
  refine ⟨Opener.ne_nil_of_ofChars hname ho, fun hwraps => ?_⟩
  obtain ⟨c, hc, hblank⟩ := hcloser hwraps
  have hmem := Text.mem_normalize hc hblank
  have hne : closer.isEmpty = false := by
    refine Bool.eq_false_iff.2 fun hempty => ?_
    rw [String.isEmpty_iff.1 hempty] at hc
    simp at hc
  have hsome : closerOf closer = some (String.ofList (Text.normalize closer.toList)) := by
    unfold closerOf
    split
    · next hnil => simp [hnil] at hmem
    · rfl
  refine ⟨String.ofList (Text.normalize closer.toList), by simp [hne, hsome], fun hempty => ?_⟩
  have hnil := congrArg String.toList hempty
  rw [String.toList_ofList] at hnil
  simp [hnil] at hmem

/-- What stands behind the name of a directive is trimmed. -/
theorem Line.trimmed_rest {l : Line} {d : Directive} (h : l.directive? = some d) :
    Text.Trimmed d.rest.toList := by
  unfold directive? at h
  split at h
  · dsimp only at h
    split at h
    · obtain rfl := Option.some.inj h
      rw [String.toList_ofList]
      exact Text.trimmed_trim _
    · obtain rfl := Option.some.inj h
      exact ⟨by simp, by simp⟩
  · simp at h

theorem Text.Trimmed.exists_not_blank {cs : List Char} (h : Trimmed cs) (hcs : cs ≠ []) :
    ∃ c ∈ cs, isBlank c = false := by
  obtain ⟨c, cs, rfl⟩ := List.exists_cons_of_ne_nil hcs
  exact ⟨c, List.mem_cons_self, h.head c rfl⟩

/-! ## Tables -/

/-- Whether something holds of every macro with a closer as it is read: trimmed, and not missing where
    the macro wraps a block. -/
def Macro.HoldsWhenRead (P : Macro → Prop) : Prop :=
  ∀ opener closer top bottom wraps m, Text.Trimmed closer.toList →
    ¬ (wraps && closer.isEmpty) = true →
    ofParts opener (if closer.isEmpty then none else some closer) top bottom wraps = .ok m →
    ∀ position, P { m with position }

section Tables

variable {P : Macro → Prop}

namespace MacroReader

variable {r : MacroReader}

theorem forall_define (hr : ∀ m ∈ r.table.values, P m) (start : Line) {m : Macro} (hm : P m) :
    ∀ n ∈ (r.define start m).table.values, P n := by
  intro n hn
  rcases Registry.mem_values_insert hn with rfl | hn
  · exact hm
  · exact hr n hn

theorem forall_finish (hmake : Macro.HoldsWhenRead P)
    (hr : ∀ m ∈ r.table.values, P m) (o : OpenMacro) {closer : String}
    (hcloser : Text.Trimmed closer.toList) (l : Line) :
    ∀ m ∈ (r.finish o closer l).table.values, P m := by
  unfold finish
  dsimp only
  split
  · exact hr
  · next hwritten =>
    split
    · exact hr
    · next m hm => exact forall_define hr o.start (hmake _ _ _ _ _ m hcloser hwritten hm _)

theorem forall_step (hmake : Macro.HoldsWhenRead P) (hr : ∀ m ∈ r.table.values, P m) (l : Line) :
    ∀ m ∈ (r.step l).table.values, P m := by
  unfold step
  split
  · exact hr
  · exact hr
  · exact hr
  · exact hr
  · next o closer _ hd => exact forall_finish hmake hr o (Line.trimmed_rest hd) l
  · unfold addLine
    split
    · dsimp only
      split
      · exact hr
      · exact hr
    · split
      · exact hr
      · exact hr

end MacroReader

/-- What holds of each macro when it is read holds of all macros of a table. -/
theorem MacroTable.forall_load (hmake : Macro.HoldsWhenRead P) {table : MacroTable}
    (h : ∀ m ∈ table.values, P m) (lines : List Line) : ∀ m ∈ (table.load lines).1.values, P m := by
  have hr : ∀ m ∈ (lines.foldl MacroReader.step ⟨table, none, .empty⟩).table.values, P m :=
    List.foldlRecOn lines MacroReader.step (motive := fun r => ∀ m ∈ r.table.values, P m) h
      fun r hr l _ => MacroReader.forall_step hmake hr l
  unfold MacroTable.load MacroReader.close
  dsimp only
  split
  · exact hr
  · exact hr

/-- What holds of each macro when it is read holds of all macros of some files. -/
theorem Compilation.forall_loadMacros (hmake : Macro.HoldsWhenRead P) (files : List (List Line)) :
    ∀ m ∈ (loadMacros files).1.values, P m :=
  List.foldlRecOn files _ (motive := fun acc : MacroTable × Report => ∀ m ∈ acc.1.values, P m)
    (by simp) fun _ h lines _ => MacroTable.forall_load hmake h lines

end Tables

/-- All macros of a table are marked. -/
def MacroTable.Marked (table : MacroTable) : Prop :=
  ∀ m ∈ table.values, m.Marked

/-- The macros of files are marked. -/
theorem Compilation.marked_loadMacros (files : List (List Line)) : (loadMacros files).1.Marked := by
  refine forall_loadMacros (fun opener closer top bottom wraps m hcloser hwritten hm _ => ?_) files
  have hmarked : m.Marked := by
    refine Macro.marked_of_ofParts (fun hwraps => hcloser.exists_not_blank fun hnil => ?_) hm
    have hempty : closer.isEmpty = true :=
      String.isEmpty_iff.2 (String.toList_eq_nil_iff.1 hnil)
    exact hwritten (Bool.and_eq_true_iff.2 ⟨hwraps, hempty⟩)
  exact ⟨hmarked.opener, hmarked.closer⟩

end MacroAsm
