import MacroAsm.Macros.Definition
import MacroAsm.Proofs.Macros.Matching
import MacroAsm.Proofs.Macros.Operands
import MacroAsm.Proofs.Macros.Pieces
import MacroAsm.Proofs.Macros.SolidOperands

set_option autoImplicit false

/-! # Uses of a macro

A use of a macro is its opener in normal spacing with an operand in the place of each token, and
with any spacing that comes to the same (`Opener.Writes`, `Opener.Uses`). The lines that are matched
are these and no others (`Macro.captures?_upToSpacing`); where every token is followed by a space,
by a comma or by nothing, the operands that are found are those that were written, since an operand
ends in front of a blank, a comma or the end of the line. -/

namespace MacroAsm

open Text (Blank isBlank isSolid Trimmed)
open OperandKind (isTokenLetter)

namespace Opener

/-! ## Written uses -/

/-- What a text in normal spacing becomes when it is used: each token becomes an operand of its
    kind, each space some blanks, each comma a comma that may have blanks around it, and every other
    character stays. -/
inductive Writes : List Char → List (List Char) → List Char → Prop where
  | nil : Writes [] [] []
  | space {text blanks code : List Char} {ws : List (List Char)} :
    blanks ≠ [] → Blank blanks → Writes text ws code → Writes (' ' :: text) ws (blanks ++ code)
  | comma {text a b code : List Char} {ws : List (List Char)} :
    Blank a → Blank b → Writes text ws code → Writes (',' :: text) ws (a ++ ',' :: (b ++ code))
  | token (k : OperandKind) {text w code : List Char} {ws : List (List Char)} :
    k.shape.Takes w → (∀ c ∈ text.head?, isTokenLetter c = false) → Writes text ws code →
    Writes (k.token.toList ++ text) (w :: ws) (w ++ code)
  | char {c : Char} {text code : List Char} {ws : List (List Char)} :
    c ≠ ' ' → c ≠ ',' → c ≠ '%' → Writes text ws code → Writes (c :: text) ws (c :: code)

/-- Whether a line is a use of an opener in normal spacing, with some operands. -/
def Uses (text : List Char) (ws : List (List Char)) (code : List Char) : Prop :=
  ∃ a body b, Blank a ∧ Blank b ∧ code = a ++ body ++ b ∧ Writes text ws body

/-- Whether every token of a text, a mark and the letters behind it, is followed by a space, by a
    comma or by nothing. -/
def tokensEnd : List Char → Bool
  | [] => true
  | c :: cs =>
    (c != '%' || (cs.dropWhile isTokenLetter).head?.all fun d => d == ' ' || d == ',') &&
      tokensEnd cs

/-! ## Uses in pieces -/

theorem takes_blanks_iff {cs : List Char} :
    (Text.Shape.many .blanks).Takes cs ↔ Blank cs := by
  simp only [Text.Shape.Takes, Text.CharSet.has_blanks, Blank]

theorem takes_gap_iff {o : Opener} {ws : List (List Char)} {cs : List Char} :
    Takes (.gap :: o) ws cs ↔
      ∃ blanks rest, cs = blanks ++ rest ∧ (blanks ≠ [] ∧ Blank blanks) ∧ o.Takes ws rest := by
  have hblanks (w : List Char) : (Piece.gap).shape.Takes w ↔ w ≠ [] ∧ Blank w := by
    simp only [Piece.shape, Text.Shape.Takes, Text.CharSet.has_blanks, Blank]
  constructor
  · rintro ⟨w, rest, ws', rfl, hw, rfl, hrest⟩
    exact ⟨w, rest, rfl, (hblanks w).1 hw, hrest⟩
  · rintro ⟨w, rest, rfl, hw, hrest⟩
    exact ⟨w, rest, ws, rfl, (hblanks w).2 hw, rfl, hrest⟩

theorem takes_comma_iff {o : Opener} {ws : List (List Char)} {cs : List Char} :
    Takes (.comma :: o) ws cs ↔
      ∃ a b rest, cs = a ++ ',' :: (b ++ rest) ∧ (Blank a ∧ Blank b) ∧ o.Takes ws rest := by
  constructor
  · rintro ⟨_, rest, ws', rfl, ⟨a, _, rfl, ha, _, b, rfl, rfl, hb⟩, rfl, hrest⟩
    exact ⟨a, b, rest, by simp, ⟨takes_blanks_iff.1 ha, takes_blanks_iff.1 hb⟩, hrest⟩
  · rintro ⟨a, b, rest, rfl, ⟨ha, hb⟩, hrest⟩
    refine ⟨a ++ ([','] ++ b), rest, ws, by simp, ?_, rfl, hrest⟩
    exact ⟨a, [','] ++ b, rfl, takes_blanks_iff.2 ha, [','], b, rfl, rfl, takes_blanks_iff.2 hb⟩

theorem takes_operand_iff {k : OperandKind} {o : Opener} {ws : List (List Char)} {cs : List Char} :
    Takes (.operand k :: o) ws cs ↔
      ∃ w rest ws', cs = w ++ rest ∧ k.shape.Takes w ∧ ws = w :: ws' ∧ o.Takes ws' rest :=
  Iff.rfl

/-- A text that is used has pieces, and these take what it becomes. -/
theorem Writes.exists_takes {text : List Char} {ws : List (List Char)} {code : List Char}
    (h : Writes text ws code) : ∃ o, PiecesOf text o ∧ o.Takes ws code := by
  induction h with
  | nil => exact ⟨[], .nil, rfl, rfl⟩
  | space hne hblanks _ ih =>
    obtain ⟨o, ho, htakes⟩ := ih
    exact ⟨_, .gap ho, takes_gap_iff.2 ⟨_, _, rfl, ⟨hne, hblanks⟩, htakes⟩⟩
  | comma ha hb _ ih =>
    obtain ⟨o, ho, htakes⟩ := ih
    exact ⟨_, .comma ho, takes_comma_iff.2 ⟨_, _, _, rfl, ⟨ha, hb⟩, htakes⟩⟩
  | token k hw hend _ ih =>
    obtain ⟨o, ho, htakes⟩ := ih
    exact ⟨_, .operand k hend ho, takes_operand_iff.2 ⟨_, _, _, rfl, hw, rfl, htakes⟩⟩
  | char hspace hcomma hmark _ ih =>
    obtain ⟨o, ho, htakes⟩ := ih
    exact ⟨_, .char hspace hcomma hmark ho, takes_char_iff.2 ⟨_, rfl, htakes⟩⟩

/-- The text of some pieces becomes what these take. -/
theorem PiecesOf.writes {text : List Char} {o : Opener} (h : PiecesOf text o)
    {ws : List (List Char)} {code : List Char} (htakes : o.Takes ws code) :
    Writes text ws code := by
  induction h generalizing ws code with
  | nil =>
    obtain ⟨rfl, rfl⟩ := htakes
    exact .nil
  | gap _ ih =>
    obtain ⟨blanks, rest, rfl, ⟨hne, hblanks⟩, hrest⟩ := takes_gap_iff.1 htakes
    exact .space hne hblanks (ih hrest)
  | comma _ ih =>
    obtain ⟨a, b, rest, rfl, ⟨ha, hb⟩, hrest⟩ := takes_comma_iff.1 htakes
    exact .comma ha hb (ih hrest)
  | operand k hend _ ih =>
    obtain ⟨w, rest, ws', rfl, hw, rfl, hrest⟩ := takes_operand_iff.1 htakes
    exact .token k hw hend (ih hrest)
  | char hspace hcomma hmark _ ih =>
    obtain ⟨rest, rfl, hrest⟩ := takes_char_iff.1 htakes
    exact .char hspace hcomma hmark (ih hrest)

/-- What a text becomes when it is used is what its pieces take. -/
theorem writes_iff {text : List Char} {o : Opener} (h : PiecesOf text o) {ws : List (List Char)}
    {code : List Char} : Writes text ws code ↔ o.Takes ws code := by
  refine ⟨fun hwrites => ?_, h.writes⟩
  obtain ⟨o', ho', htakes⟩ := hwrites.exists_takes
  rwa [h.unique ho']

theorem writes_nil_iff {ws : List (List Char)} {code : List Char} :
    Writes [] ws code ↔ ws = [] ∧ code = [] :=
  writes_iff .nil

/-- Only the empty text is used as the empty line. -/
theorem Writes.ne_nil {text : List Char} {ws : List (List Char)} {code : List Char}
    (h : Writes text ws code) (htext : text ≠ []) : code ≠ [] := by
  cases h with
  | nil => exact absurd rfl htext
  | space hne _ _ => exact List.append_ne_nil_of_left_ne_nil hne _
  | comma _ _ _ => exact List.append_ne_nil_of_right_ne_nil _ (List.cons_ne_nil _ _)
  | token k hw _ _ =>
    exact List.append_ne_nil_of_left_ne_nil (Piece.ne_nil_of_takes (p := .operand k) hw) _
  | char _ _ _ _ => exact List.cons_ne_nil _ _

/-! ## Blanks at the ends -/

section Ends

variable {text code : List Char} {ws : List (List Char)}

/-- What is written for the rest of a text ends the line, unless there is no rest. -/
theorem Writes.not_isBlank_getLast? (h : Writes text ws code) (htext : text ≠ [])
    (hlast : ∀ c ∈ code.getLast?, isBlank c = false) (front : List Char) :
    ∀ c ∈ (front ++ code).getLast?, isBlank c = false := by
  rwa [List.getLast?_append_of_ne_nil front (h.ne_nil htext)]

/-- Blanks in front of a use may be dropped. -/
theorem Writes.trimStart (h : Writes text ws code) (htext : ∀ c ∈ text.head?, isBlank c = false) :
    Writes text ws (Text.trimStart code) := by
  cases h with
  | nil => exact .nil
  | space _ _ _ => exact absurd (htext ' ' rfl) (by decide)
  | comma ha hb hrest =>
    rw [Text.trimStart_append_of_blank ha, Text.trimStart_cons (by decide)]
    exact .comma (a := []) (List.forall_mem_nil _) hb hrest
  | token k hw hend hrest =>
    rw [(OperandKind.firm_of_takes hw).trimStart_append]
    exact .token k hw hend hrest
  | char hspace hcomma hmark hrest =>
    rw [Text.trimStart_cons (htext _ rfl)]
    exact .char hspace hcomma hmark hrest

/-- Blanks behind a use may be dropped. -/
theorem Writes.exists_trimEnd (h : Writes text ws code)
    (htext : ∀ c ∈ text.getLast?, isBlank c = false) :
    ∃ body b, Blank b ∧ code = body ++ b ∧ (∀ c ∈ body.getLast?, isBlank c = false) ∧
      Writes text ws body := by
  induction h with
  | nil => exact ⟨[], [], List.forall_mem_nil _, rfl, by simp, .nil⟩
  | @space text blanks code ws hne hblanks hrest ih =>
    rcases eq_or_ne text [] with rfl | hne'
    · exact absurd (htext ' ' rfl) (by decide)
    · obtain ⟨body, b, hb, rfl, hlast, hbody⟩ :=
        ih fun c hc => htext c (Text.getLast?_cons_of_eq_some hc)
      exact ⟨blanks ++ body, b, hb, (List.append_assoc ..).symm,
        hbody.not_isBlank_getLast? hne' hlast _, .space hne hblanks hbody⟩
  | @comma text a b code ws ha hb hrest ih =>
    rcases eq_or_ne text [] with rfl | hne'
    · obtain ⟨rfl, rfl⟩ := writes_nil_iff.1 hrest
      refine ⟨a ++ [','], b, hb, by simp, ?_, .comma (b := []) ha (List.forall_mem_nil _) .nil⟩
      rw [List.getLast?_concat]
      exact fun c hc => Option.some.inj hc ▸ by decide
    · obtain ⟨body, b', hb', rfl, hlast, hbody⟩ :=
        ih fun c hc => htext c (Text.getLast?_cons_of_eq_some hc)
      refine ⟨a ++ ',' :: (b ++ body), b', hb', by simp, ?_, .comma ha hb hbody⟩
      have hsplit : a ++ ',' :: (b ++ body) = (a ++ ',' :: b) ++ body := by simp
      rw [hsplit]
      exact hbody.not_isBlank_getLast? hne' hlast _
  | @token k text w code ws hw hend hrest ih =>
    rcases eq_or_ne text [] with rfl | hne'
    · obtain ⟨rfl, rfl⟩ := writes_nil_iff.1 hrest
      refine ⟨w, [], List.forall_mem_nil _, rfl, (OperandKind.firm_of_takes hw).trimmed.last, ?_⟩
      have htoken := Writes.token k hw hend .nil
      rwa [List.append_nil w] at htoken
    · rw [List.getLast?_append_of_ne_nil _ hne'] at htext
      obtain ⟨body, b, hb, rfl, hlast, hbody⟩ := ih htext
      exact ⟨w ++ body, b, hb, (List.append_assoc ..).symm,
        hbody.not_isBlank_getLast? hne' hlast _, .token k hw hend hbody⟩
  | @char c text code ws hspace hcomma hmark hrest ih =>
    rcases eq_or_ne text [] with rfl | hne'
    · obtain ⟨rfl, rfl⟩ := writes_nil_iff.1 hrest
      exact ⟨[c], [], List.forall_mem_nil _, rfl, htext, .char hspace hcomma hmark .nil⟩
    · obtain ⟨body, b, hb, rfl, hlast, hbody⟩ :=
        ih fun c hc => htext c (Text.getLast?_cons_of_eq_some hc)
      exact ⟨c :: body, b, hb, rfl, hbody.not_isBlank_getLast? hne' hlast [c],
        .char hspace hcomma hmark hbody⟩

/-- A line is a use exactly if it is one without the blanks at its ends. -/
theorem uses_iff (htext : Trimmed text) : Uses text ws code ↔ Writes text ws (Text.trim code) := by
  constructor
  · rintro ⟨a, body, b, ha, hb, rfl, hbody⟩
    obtain ⟨core, b', hb', hsplit, hlast, hcore⟩ :=
      (hbody.trimStart htext.head).exists_trimEnd htext.last
    have htrim : Text.trim body = core := by
      rw [Text.trim, hsplit, Text.trimEnd_append_of_blank hb', Text.trimEnd_eq_self hlast]
    rwa [Text.trim_append_append_self body ha hb, htrim]
  · intro h
    obtain ⟨a, b, ha, hb, hsplit, -⟩ := Text.exists_eq_append_trim code
    exact ⟨a, Text.trim code, b, ha, hb, hsplit, h⟩

end Ends

/-! ## The operands of a use -/

theorem tokensEnd_of_append {a text : List Char} (h : tokensEnd (a ++ text) = true) :
    tokensEnd text = true := by
  induction a with
  | nil => exact h
  | cons c a ih => exact ih (Bool.and_eq_true_iff.1 h).2

theorem head_of_tokensEnd {k : OperandKind} {text : List Char}
    (h : tokensEnd (k.token.toList ++ text) = true)
    (hletters : ∀ c ∈ text.head?, isTokenLetter c = false) :
    ∀ c ∈ text.head?, c = ' ' ∨ c = ',' := by
  obtain ⟨letters, hk, hl⟩ := k.exists_token
  rw [hk, List.cons_append, tokensEnd, dropWhile_append_of_head? hl hletters] at h
  have hhead : text.head?.all (fun d => d == ' ' || d == ',') = true :=
    (Bool.and_eq_true_iff.1 h).1
  simpa only [Option.all_eq_true, Bool.or_eq_true, beq_iff_eq, Option.mem_def] using hhead

/-- Behind a token that is followed so, the line goes on with a blank or a comma, or it ends. -/
theorem PiecesOf.head_not_isSolid {text : List Char} {o : Opener} (h : PiecesOf text o)
    (htext : ∀ c ∈ text.head?, c = ' ' ∨ c = ',') {ws : List (List Char)} {code : List Char}
    (htakes : o.Takes ws code) : ∀ c ∈ code.head?, isSolid c = false := by
  have hblank {cs : List Char} (hcs : Blank cs) {d : Char} (hd : isSolid d = false)
      (rest : List Char) : ∀ c ∈ (cs ++ d :: rest).head?, isSolid c = false := by
    intro c hc
    cases cs with
    | nil => exact Option.some.inj hc ▸ hd
    | cons e cs =>
      obtain rfl := Option.some.inj hc
      simp [isSolid, hcs e List.mem_cons_self]
  cases h with
  | nil =>
    obtain ⟨-, rfl⟩ := htakes
    simp
  | gap _ =>
    obtain ⟨blanks, rest, rfl, ⟨hne, hblanks⟩, -⟩ := takes_gap_iff.1 htakes
    obtain ⟨d, blanks, rfl⟩ := List.exists_cons_of_ne_nil hne
    have hd : isSolid d = false := by simp [isSolid, hblanks d List.mem_cons_self]
    exact hblank (List.forall_mem_nil (Text.isBlank · = true)) hd _
  | comma _ =>
    obtain ⟨a, b, rest, rfl, ⟨ha, -⟩, -⟩ := takes_comma_iff.1 htakes
    exact hblank ha (by decide) _
  | operand k _ _ =>
    obtain ⟨letters, hk, -⟩ := k.exists_token
    rw [hk] at htext
    rcases htext '%' rfl with h | h <;> exact absurd h (by decide)
  | char hspace hcomma _ _ =>
    rcases htext _ rfl with h | h
    · exact absurd h hspace
    · exact absurd h hcomma

/-- A line is a use with one list of operands only, if every token of the opener is followed by a
    space, by a comma or by nothing; blanks in front do not matter. -/
theorem PiecesOf.operands_unique {text : List Char} {o : Opener} (h : PiecesOf text o)
    (hend : tokensEnd text = true) {ws ws' : List (List Char)} {cs cs' : List Char}
    (htakes : o.Takes ws cs) (htakes' : o.Takes ws' cs')
    (hcs : Text.trimStart cs = Text.trimStart cs') : ws = ws' := by
  induction h generalizing ws ws' cs cs' with
  | nil => exact htakes.1.trans htakes'.1.symm
  | gap _ ih =>
    obtain ⟨blanks, rest, rfl, ⟨-, hblanks⟩, hrest⟩ := takes_gap_iff.1 htakes
    obtain ⟨blanks', rest', rfl, ⟨-, hblanks'⟩, hrest'⟩ := takes_gap_iff.1 htakes'
    rw [Text.trimStart_append_of_blank hblanks, Text.trimStart_append_of_blank hblanks'] at hcs
    exact ih (tokensEnd_of_append (a := [' ']) hend) hrest hrest' hcs
  | comma _ ih =>
    obtain ⟨a, b, rest, rfl, ⟨ha, hb⟩, hrest⟩ := takes_comma_iff.1 htakes
    obtain ⟨a', b', rest', rfl, ⟨ha', hb'⟩, hrest'⟩ := takes_comma_iff.1 htakes'
    rw [Text.trimStart_append_of_blank ha, Text.trimStart_append_of_blank ha'] at hcs
    have hbehind : b ++ rest = b' ++ rest' := (List.cons_eq_cons.1 hcs).2
    refine ih (tokensEnd_of_append (a := [',']) hend) hrest hrest' ?_
    rw [← Text.trimStart_append_of_blank hb, hbehind, Text.trimStart_append_of_blank hb']
  | @operand text o k hletters hpieces ih =>
    obtain ⟨w, rest, ws, rfl, hw, rfl, hrest⟩ := takes_operand_iff.1 htakes
    obtain ⟨w', rest', ws', rfl, hw', rfl, hrest'⟩ := takes_operand_iff.1 htakes'
    have hnext := head_of_tokensEnd hend hletters
    rw [(OperandKind.firm_of_takes hw).trimStart_append,
      (OperandKind.firm_of_takes hw').trimStart_append] at hcs
    obtain ⟨rfl, rfl⟩ := OperandKind.eq_of_takes_append hw hw'
      (hpieces.head_not_isSolid hnext hrest) (hpieces.head_not_isSolid hnext hrest') hcs
    rw [ih (tokensEnd_of_append hend) hrest hrest' rfl]
  | @char c text o _ _ _ _ ih =>
    obtain ⟨rest, rfl, hrest⟩ := takes_char_iff.1 htakes
    obtain ⟨rest', rfl, hrest'⟩ := takes_char_iff.1 htakes'
    refine ih (tokensEnd_of_append (a := [c]) hend) hrest hrest' ?_
    cases hc : isBlank c with
    | true =>
      have hblank : Blank [c] := List.forall_mem_singleton.2 hc
      have hskip (cs : List Char) : Text.trimStart (c :: cs) = Text.trimStart cs :=
        Text.trimStart_append_of_blank hblank
      rwa [hskip, hskip] at hcs
    | false =>
      rw [Text.trimStart_cons hc, Text.trimStart_cons hc] at hcs
      rw [(List.cons_eq_cons.1 hcs).2]

end Opener

/-! ## Macros -/

namespace Macro

variable {opener : String} {closer : Option String} {top bottom : List String} {wraps : Bool}
  {m : Macro}

/-- The pieces of a macro are those of its opener in normal spacing. -/
theorem piecesOf_of_ofParts (h : ofParts opener closer top bottom wraps = .ok m) :
    Opener.PiecesOf (Text.normalize opener.toList) m.opener := by
  obtain ⟨-, o, ho, rfl⟩ := ofParts_eq_ok h
  exact Opener.piecesOf_of_ofChars ho

/-- **Macro uses are matched up to spacing.** What is matched is a use of the opener, with one
    operand of its kind for each token, and every use is matched. Where each token of the opener is
    followed by a space, by a comma or by nothing, the operands that are found are those of the use.
    -/
theorem captures?_upToSpacing (h : ofParts opener closer top bottom wraps = .ok m) (code : String) :
    let text := Text.normalize opener.toList
    (∀ args, m.captures? code = some args →
      OperandKind.TakeEach m.kinds (args.map String.toList) ∧
        Opener.Uses text (args.map String.toList) code.toList) ∧
    (∀ args : List String, Opener.Uses text (args.map String.toList) code.toList →
      ∃ args', m.captures? code = some args') ∧
    (Opener.tokensEnd text = true → ∀ args : List String,
      Opener.Uses text (args.map String.toList) code.toList → m.captures? code = some args) := by
  intro text
  have hpieces : Opener.PiecesOf text m.opener := piecesOf_of_ofParts h
  have huses (ws : List (List Char)) :
      Opener.Uses text ws code.toList ↔ m.opener.Takes ws (Text.trim code.toList) :=
    (Opener.uses_iff (Text.trimmed_normalize _)).trans (Opener.writes_iff hpieces)
  have hlist (ws : List (List Char)) : (ws.map String.ofList).map String.toList = ws := by simp
  refine ⟨fun args hargs => ?_, fun args hargs => ?_, fun hend args hargs => ?_⟩
  · obtain ⟨ws, hws, rfl⟩ := Option.map_eq_some_iff.1 hargs
    rw [hlist, huses]
    exact ⟨Opener.takes_of_matchTrimmed? hws, Opener.takes_operands_of_matchTrimmed? hws⟩
  · obtain ⟨ws, hws⟩ := Opener.exists_matchTrimmed? ((huses _).1 hargs)
    exact ⟨ws.map String.ofList, Option.map_eq_some_iff.2 ⟨ws, hws, rfl⟩⟩
  · have htakes := (huses _).1 hargs
    obtain ⟨ws, hws⟩ := Opener.exists_matchTrimmed? htakes
    have hsame :=
      hpieces.operands_unique hend (Opener.takes_operands_of_matchTrimmed? hws) htakes rfl
    refine Option.map_eq_some_iff.2 ⟨ws, hws, ?_⟩
    rw [hsame, List.map_map]
    simp

/-- A macro of a register and a string. -/
def noting : Macro :=
  ⟨[.char 'n', .gap, .operand .register, .comma, .operand .quoted, .gap, .char 'o', .char 'k'],
    none, [], [], false, none⟩

/-- It is used with a comma and spaces in the string, and with other blanks around all parts. -/
theorem captures?_noting :
    ofParts "n  %register , %string ok" none [] [] false = .ok noting ∧
      Opener.tokensEnd (Text.normalize "n  %register , %string ok".toList) = true ∧
      noting.captures? "\tn &r1 ,\"a,  b\"   ok " = some ["&r1", "\"a,  b\""] ∧
      Opener.Uses (Text.normalize "n  %register , %string ok".toList)
        [['&', 'r', '1'], ['"', 'a', ',', ' ', ' ', 'b', '"']]
        "\tn &r1 ,\"a,  b\"   ok ".toList := by
  have h : ofParts "n  %register , %string ok" none [] [] false = .ok noting := by decide +kernel
  have hmatch : noting.captures? "\tn &r1 ,\"a,  b\"   ok " = some ["&r1", "\"a,  b\""] := by
    decide +kernel
  exact ⟨h, by decide +kernel, hmatch, ((captures?_upToSpacing h _).1 _ hmatch).2⟩

end Macro

end MacroAsm
