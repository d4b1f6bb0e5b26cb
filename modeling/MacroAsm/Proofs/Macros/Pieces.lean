import MacroAsm.Macros.Opener
import MacroAsm.Proofs.Lists
import MacroAsm.Proofs.Text.Cuts

set_option autoImplicit false

/-! # The pieces of an opener

A text is an opener in pieces if, from the left, each of its characters is a piece or belongs to the
token of one (`Opener.PiecesOf`). The openers that can be read are those, and each is read as its
pieces (`Opener.ofChars_eq_ok_iff`); written again, they are the text
(`Opener.PiecesOf.written_eq`). -/

namespace MacroAsm

/-! ## Tokens of kinds -/

namespace OperandKind

/-- Whether a token goes on with a character. -/
def isTokenLetter (c : Char) : Bool :=
  'a' ≤ c && c ≤ 'z'

/-- A token is a mark and letters. -/
theorem exists_token (k : OperandKind) :
    ∃ letters, k.token.toList = '%' :: letters ∧ ∀ c ∈ letters, isTokenLetter c = true := by
  cases k <;> exact ⟨_, rfl, List.all_eq_true.1 rfl⟩

theorem parse_eq_ok_iff {s : String} {k : OperandKind} : parse s = .ok k ↔ s = k.token := by
  constructor
  · intro h
    unfold parse at h
    split at h
    · next k' hfind =>
      obtain rfl := Except.ok.inj h
      have htoken := List.find?_some hfind
      exact (beq_iff_eq.1 htoken).symm
    · cases h
  · rintro rfl
    cases k <;> rfl

end OperandKind

namespace Opener

open OperandKind (isTokenLetter)

theorem exists_of_map_eq_ok {ε α β : Type} {f : α → β} {x : Except ε α} {b : β}
    (h : x.map f = .ok b) : ∃ a, x = .ok a ∧ f a = b := by
  cases x with
  | error e => cases h
  | ok a => exact ⟨a, rfl, Except.ok.inj h⟩

/-! ## Reading from the left -/

/-- A character that begins no token is a piece of its own. -/
theorem ofChars_cons_of_ne {c : Char} (hc : c ≠ '%') (cs : List Char) :
    ofChars (c :: cs) = (ofChars cs).map (Piece.ofChar c :: ·) := by
  unfold ofChars
  rw [Text.Cut.ofChars_cons_of_ne hc]
  dsimp only
  cases (Text.Cut.ofChars '%' readToken? cs).rest.mapM ofToken with
  | ok parts => rfl
  | error e => rfl

/-- The text in front of the first token begins as the whole text does. -/
theorem head?_of_lead {cs : List Char} {c : Char}
    (h : c ∈ (Text.Cut.ofChars '%' readToken? cs).lead.head?) : c ∈ cs.head? := by
  cases cs with
  | nil => cases h
  | cons d cs =>
    by_cases hd : d = '%'
    · subst hd
      cases h
    · rw [Text.Cut.ofChars_cons_of_ne hd] at h
      exact h

/-- A token is read to its last letter. -/
theorem ofChars_cons_mark {letters rest : List Char} (hl : ∀ c ∈ letters, isTokenLetter c = true)
    (hr : ∀ c ∈ rest.head?, isTokenLetter c = false) :
    ofChars ('%' :: (letters ++ rest)) =
      match OperandKind.parse (String.ofList ('%' :: letters)) with
      | .ok k => (ofChars rest).map (.operand k :: ·)
      | .error e => .error e := by
  have hmark : '%' ∉ letters := fun h => absurd (hl '%' h) (by decide)
  have hcut : Text.Cut.ofChars '%' readToken? (letters ++ rest) =
      ⟨letters ++ (Text.Cut.ofChars '%' readToken? rest).lead,
        (Text.Cut.ofChars '%' readToken? rest).rest⟩ :=
    Text.Cut.ofChars_append_of_notMem hmark rest
  have hread : readToken? (letters ++ (Text.Cut.ofChars '%' readToken? rest).lead) =
      some (letters, (Text.Cut.ofChars '%' readToken? rest).lead) := by
    have hlead : ∀ c ∈ (Text.Cut.ofChars '%' readToken? rest).lead.head?, isTokenLetter c = false :=
      fun c hc => hr c (head?_of_lead hc)
    show some (List.takeWhile isTokenLetter _, List.dropWhile isTokenLetter _) = _
    rw [takeWhile_append_of_head? hl hlead, dropWhile_append_of_head? hl hlead]
  have hplace : Text.Cut.ofChars '%' readToken? ('%' :: (letters ++ rest)) =
      ⟨[], (letters, (Text.Cut.ofChars '%' readToken? rest).lead) ::
        (Text.Cut.ofChars '%' readToken? rest).rest⟩ := by
    unfold Text.Cut.ofChars at hcut hread ⊢
    rw [List.foldr_cons, Text.Cut.step, if_pos rfl, hcut, hread]
  unfold ofChars
  rw [hplace]
  dsimp only
  rw [List.mapM_cons, ofToken]
  cases OperandKind.parse (String.ofList ('%' :: letters)) with
  | error e => rfl
  | ok k =>
    cases (Text.Cut.ofChars '%' readToken? rest).rest.mapM ofToken with
    | error e => rfl
    | ok parts => rfl

/-! ## Pieces of a text -/

/-- The pieces of a text in normal spacing: tokens are read to their last letter, and all else is
    read character by character. -/
inductive PiecesOf : List Char → Opener → Prop where
  | nil : PiecesOf [] []
  | gap {cs : List Char} {o : Opener} : PiecesOf cs o → PiecesOf (' ' :: cs) (.gap :: o)
  | comma {cs : List Char} {o : Opener} : PiecesOf cs o → PiecesOf (',' :: cs) (.comma :: o)
  | operand {cs : List Char} {o : Opener} (k : OperandKind) :
    (∀ c ∈ cs.head?, isTokenLetter c = false) → PiecesOf cs o →
    PiecesOf (k.token.toList ++ cs) (.operand k :: o)
  | char {c : Char} {cs : List Char} {o : Opener} :
    c ≠ ' ' → c ≠ ',' → c ≠ '%' → PiecesOf cs o → PiecesOf (c :: cs) (.char c :: o)

theorem PiecesOf.ofChars_eq {cs : List Char} {o : Opener} (h : PiecesOf cs o) :
    ofChars cs = .ok o := by
  induction h with
  | nil => rfl
  | gap _ ih => rw [ofChars_cons_of_ne (by decide), ih]; rfl
  | comma _ ih => rw [ofChars_cons_of_ne (by decide), ih]; rfl
  | operand k hend _ ih =>
    obtain ⟨letters, hk, hl⟩ := k.exists_token
    have hparse : OperandKind.parse (String.ofList ('%' :: letters)) = .ok k :=
      OperandKind.parse_eq_ok_iff.2 (by rw [← hk, String.ofList_toList])
    rw [hk, List.cons_append, ofChars_cons_mark hl hend, hparse, ih]
    rfl
  | char hspace hcomma hmark _ ih =>
    rw [ofChars_cons_of_ne hmark, ih, Piece.ofChar, if_neg hcomma, if_neg hspace]
    rfl

theorem piecesOf_of_ofChars {cs : List Char} {o : Opener} (h : ofChars cs = .ok o) :
    PiecesOf cs o := by
  induction hn : cs.length using Nat.strongRecOn generalizing cs o with
  | ind n ih =>
    cases cs with
    | nil =>
      obtain rfl := Except.ok.inj h
      exact .nil
    | cons c cs =>
      rw [List.length_cons] at hn
      by_cases hc : c = '%'
      · subst hc
        obtain ⟨letters, rest, rfl, hl, hr⟩ := exists_eq_run_append isTokenLetter cs
        rw [ofChars_cons_mark hl hr] at h
        split at h
        · next k hparse =>
          obtain ⟨o', ho', rfl⟩ := exists_of_map_eq_ok h
          have htoken : k.token.toList = '%' :: letters := by
            rw [← OperandKind.parse_eq_ok_iff.1 hparse, String.toList_ofList]
          have hpieces := ih rest.length (by rw [List.length_append] at hn; omega) ho' rfl
          rw [← List.cons_append, ← htoken]
          exact .operand k hr hpieces
        · cases h
      · rw [ofChars_cons_of_ne hc] at h
        obtain ⟨o', ho', rfl⟩ := exists_of_map_eq_ok h
        have hpieces := ih cs.length (by omega) ho' rfl
        unfold Piece.ofChar
        split
        · next hcomma =>
          subst hcomma
          exact .comma hpieces
        · next hcomma =>
          split
          · next hspace =>
            subst hspace
            exact .gap hpieces
          · next hspace => exact .char hspace hcomma hc hpieces

/-- The openers that can be read are the texts that have pieces, and these are what is read. -/
theorem ofChars_eq_ok_iff {cs : List Char} {o : Opener} : ofChars cs = .ok o ↔ PiecesOf cs o :=
  ⟨piecesOf_of_ofChars, PiecesOf.ofChars_eq⟩

/-- A text has its pieces in one way. -/
theorem PiecesOf.unique {cs : List Char} {o o' : Opener} (h : PiecesOf cs o)
    (h' : PiecesOf cs o') : o = o' :=
  Except.ok.inj (h.ofChars_eq.symm.trans h'.ofChars_eq)

/-- An opener can be read when each of its tokens is that of a kind. -/
theorem exists_ofChars_eq_ok {cs : List Char}
    (h : ∀ letters ∈ (Text.Cut.ofChars '%' readToken? cs).tokens,
      (OperandKind.parse (String.ofList ('%' :: letters))).isOk = true) :
    ∃ o, ofChars cs = .ok o := by
  have hparts : ∃ parts, (Text.Cut.ofChars '%' readToken? cs).rest.mapM ofToken = .ok parts := by
    refine exists_mapM_eq_ok fun part hpart => ?_
    have hpart := h part.1 (List.mem_map_of_mem hpart)
    cases hparse : OperandKind.parse (String.ofList ('%' :: part.1)) with
    | error e =>
      rw [hparse] at hpart
      cases hpart
    | ok k => exact ⟨.operand k :: part.2.map Piece.ofChar, by rw [ofToken, hparse]⟩
  obtain ⟨parts, hparts⟩ := hparts
  exact ⟨_, by rw [ofChars, hparts]⟩

/-- An opener is written as it was read. -/
theorem PiecesOf.written_eq {cs : List Char} {o : Opener} (h : PiecesOf cs o) :
    o.written = String.ofList cs := by
  refine congrArg String.ofList ?_
  induction h with
  | nil => rfl
  | gap _ ih => rw [List.flatMap_cons, ih]; rfl
  | comma _ ih => rw [List.flatMap_cons, ih]; rfl
  | operand k _ _ ih => rw [List.flatMap_cons, ih]; rfl
  | char _ _ _ _ ih => rw [List.flatMap_cons, ih]; rfl

end Opener

end MacroAsm
