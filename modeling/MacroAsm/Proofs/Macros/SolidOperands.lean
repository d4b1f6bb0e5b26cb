import MacroAsm.Proofs.Isa.OperandShapes
import MacroAsm.Proofs.Macros.Nonempty

set_option autoImplicit false

/-! # Operands and the text around them

Every operand begins and ends with a character that is neither a blank nor a comma, and only a
string holds such characters at all (`OperandKind.firm_of_takes`). So the spacing of a line is found
beside its operands, and an operand that is followed by a blank, by a comma or by nothing ends there
(`OperandKind.eq_of_takes_append`). -/

namespace MacroAsm

/-! ## Solid shapes -/

namespace Text

/-- Whether a class holds only characters behind the comma. -/
def CharSet.isSolid (s : CharSet) : Bool :=
  !s.outside && s.ranges.all fun r => '-' ≤ r.1 && r.2 ≤ '~'

theorem CharSet.isSolid_of_has {s : CharSet} (hs : s.isSolid = true) {c : Char}
    (h : s.has c = true) : Text.isSolid c = true := by
  obtain ⟨hinside, hranges⟩ := Bool.and_eq_true_iff.1 hs
  rw [Bool.not_eq_true'] at hinside
  rw [has, hinside, Bool.bne_false, List.any_eq_true] at h
  obtain ⟨r, hr, hrange⟩ := h
  simp only [Bool.and_eq_true, decide_eq_true_eq] at hrange
  have hends := List.all_eq_true.1 hranges r hr
  simp only [Bool.and_eq_true, decide_eq_true_eq] at hends
  exact isSolid_of_le (Char.le_trans hends.1 hrange.1) (Char.le_trans hrange.2 hends.2)

/-- Whether all characters of a shape are solid. -/
def Shape.isSolid : Shape → Bool
  | .text t => t.all Text.isSolid
  | .maybe c => Text.isSolid c
  | .one s | .many s | .some s => s.isSolid
  | .seq a b | .choice a b => a.isSolid && b.isSolid

theorem Shape.isSolid_of_takes {s : Shape} (hs : s.isSolid = true) {cs : List Char}
    (h : s.Takes cs) : ∀ c ∈ cs, Text.isSolid c = true := by
  induction s generalizing cs with
  | text t =>
    obtain rfl := h
    exact List.all_eq_true.1 hs
  | maybe d =>
    rcases h with rfl | rfl
    · exact List.forall_mem_nil _
    · exact List.forall_mem_singleton.2 hs
  | one s =>
    obtain ⟨c, hc, rfl⟩ := h
    exact List.forall_mem_singleton.2 (CharSet.isSolid_of_has hs hc)
  | many s => exact fun c hc => CharSet.isSolid_of_has hs (h c hc)
  | some s => exact fun c hc => CharSet.isSolid_of_has hs (h.2 c hc)
  | seq a b iha ihb =>
    obtain ⟨ha, hb⟩ := Bool.and_eq_true_iff.1 hs
    obtain ⟨u, v, rfl, hu, hv⟩ := h
    exact List.forall_mem_append.2 ⟨iha ha hu, ihb hb hv⟩
  | choice a b iha ihb =>
    obtain ⟨ha, hb⟩ := Bool.and_eq_true_iff.1 hs
    rcases h with h | h
    · exact iha ha h
    · exact ihb hb h

end Text

/-! ## Operands -/

namespace OperandKind

variable {k : OperandKind} {w : List Char}

theorem isSolid_shape (hk : k ≠ .quoted) : k.shape.isSolid = true := by
  cases k with
  | quoted => exact absurd rfl hk
  | _ => decide

/-- An operand begins and ends with a character that is neither a blank nor a comma. -/
theorem firm_of_takes (h : k.shape.Takes w) : Text.Firm w := by
  by_cases hk : k = .quoted
  · subst hk
    obtain ⟨_, _, rfl, rfl, inner, _, rfl, -, rfl⟩ := h
    have hquote : Text.isSolid '"' = true := by decide
    have hlast : ('"' :: (inner ++ ['"'])).getLast? = some '"' :=
      List.getLast?_concat (l := '"' :: inner)
    exact ⟨⟨'"', rfl, hquote⟩, ⟨'"', hlast, hquote⟩⟩
  · refine Text.firm_of_forall_isSolid ?_ (Text.Shape.isSolid_of_takes (isSolid_shape hk) h)
    rintro rfl
    have hempty := (Text.Shape.mayBeEmpty_iff _).2 h
    rw [show k.shape.mayBeEmpty = false from Piece.mayBeEmpty_shape (.operand k)] at hempty
    cases hempty

/-- Only a string can be in another spacing than the normal one. -/
theorem normalize_of_takes (hk : k ≠ .quoted) (h : k.shape.Takes w) : Text.normalize w = w :=
  (firm_of_takes h).normalize_eq_self_iff.2
    (Text.spaced_of_forall_isSolid (Text.Shape.isSolid_of_takes (isSolid_shape hk) h))

/-- An operand ends in front of a blank, a comma or the end of a text. -/
theorem eq_of_takes_append {w' rest rest' : List Char} (h : k.shape.Takes w)
    (h' : k.shape.Takes w') (hrest : ∀ c ∈ rest.head?, Text.isSolid c = false)
    (hrest' : ∀ c ∈ rest'.head?, Text.isSolid c = false) (heq : w ++ rest = w' ++ rest') :
    w = w' ∧ rest = rest' := by
  have hsame : w = w' := by
    by_cases hk : k = .quoted
    · subst hk
      obtain ⟨inner, rfl, hinner⟩ := takes_quoted_iff.1 h
      obtain ⟨inner', rfl, hinner'⟩ := takes_quoted_iff.1 h'
      -- what is in quotes goes up to the first quote
      have hrun {cs : List Char} (hcs : '"' ∉ cs) (rest : List Char) :
          (cs ++ '"' :: rest).takeWhile (· != '"') = cs :=
        takeWhile_append_of_head? (fun c hc => bne_iff_ne.2 fun hq => hcs (hq ▸ hc)) (by simp)
      have htail : inner ++ '"' :: rest = inner' ++ '"' :: rest' := by simpa using heq
      rw [← hrun hinner rest, ← hrun hinner' rest', htail]
    · have hsolid := Text.Shape.isSolid_of_takes (isSolid_shape hk) h
      have hsolid' := Text.Shape.isSolid_of_takes (isSolid_shape hk) h'
      rw [← takeWhile_append_of_head? hsolid hrest, ← takeWhile_append_of_head? hsolid' hrest', heq]
  exact ⟨hsame, List.append_cancel_left (hsame ▸ heq)⟩

end OperandKind

end MacroAsm
