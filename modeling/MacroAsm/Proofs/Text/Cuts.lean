import MacroAsm.Proofs.Lists
import MacroAsm.Text.Cut

set_option autoImplicit false

/-! # Tokens from the left

A cut is made from the right, but it is reasoned about from the left: text without a mark is passed
over, and a mark begins a token or does not. Said without the order in which it is made, a cut is the
only way to take a text apart in which each token is read with all that belongs to it and no literal
stretch holds one (`Cut.fromLeft_iff`). -/

namespace MacroAsm.Text

section Run

variable {inClass : Char → Bool} {cs run rest : List Char}

/-- A run is read up to the first character that is not of the class. -/
theorem readRun?_eq_some_iff : readRun? inClass cs = some (run, rest) ↔ cs = run ++ rest ∧
    run ≠ [] ∧ (∀ c ∈ run, inClass c = true) ∧ ∀ c ∈ rest.head?, inClass c = false := by
  unfold readRun?
  constructor
  · intro h
    split at h
    · simp at h
    · next hne =>
      simp only [Option.some.injEq, Prod.mk.injEq] at h
      obtain ⟨rfl, rfl⟩ := h
      refine ⟨List.takeWhile_append_dropWhile.symm, hne, List.all_eq_true.1 List.all_takeWhile,
        fun c hc => ?_⟩
      have hhead := List.head?_dropWhile_not inClass cs
      rwa [Option.mem_def.1 hc] at hhead
  · rintro ⟨rfl, hne, hrun, hrest⟩
    rw [takeWhile_append_of_head? hrun hrest, dropWhile_append_of_head? hrun hrest]
    split
    · exact absurd rfl hne
    · rfl

theorem readRun?_eq_none_iff : readRun? inClass cs = none ↔ ∀ c ∈ cs.head?, inClass c = false := by
  unfold readRun?
  cases cs with
  | nil => simp
  | cons c cs => cases h : inClass c <;> simp [h]

theorem eq_append_of_readRun? (h : readRun? inClass cs = some (run, rest)) : cs = run ++ rest :=
  (readRun?_eq_some_iff.1 h).1

theorem forall_of_readRun? (h : readRun? inClass cs = some (run, rest)) :
    ∀ c ∈ run, inClass c = true :=
  (readRun?_eq_some_iff.1 h).2.2.1

end Run

namespace Cut

variable {α : Type} {mark : Char} {token? : List Char → Option (α × List Char)}

theorem ofChars_cons_of_ne {c : Char} (hc : c ≠ mark) (cs : List Char) :
    ofChars mark token? (c :: cs) =
      ⟨c :: (ofChars mark token? cs).lead, (ofChars mark token? cs).rest⟩ := by
  unfold ofChars
  rw [List.foldr_cons, step, if_neg hc]

/-- Text without a mark belongs to the literal stretch in front. -/
theorem ofChars_append_of_notMem {a : List Char} (ha : mark ∉ a) (cs : List Char) :
    ofChars mark token? (a ++ cs) =
      ⟨a ++ (ofChars mark token? cs).lead, (ofChars mark token? cs).rest⟩ := by
  induction a with
  | nil => rfl
  | cons c a ih =>
    have hc : c ≠ mark := fun h => ha (h ▸ List.mem_cons_self)
    rw [List.cons_append, ofChars_cons_of_ne hc, ih fun h => ha (List.mem_cons_of_mem c h)]
    rfl

theorem tokens_append_of_notMem {a : List Char} (ha : mark ∉ a) (cs : List Char) :
    (ofChars mark token? (a ++ cs)).tokens = (ofChars mark token? cs).tokens := by
  rw [ofChars_append_of_notMem ha]
  rfl

theorem tokens_of_notMem {cs : List Char} (h : mark ∉ cs) :
    (ofChars mark token? cs).tokens = [] := by
  have happend : (ofChars mark token? (cs ++ [])).tokens = (ofChars mark token? []).tokens :=
    tokens_append_of_notMem h []
  rwa [List.append_nil] at happend

/-- A mark that begins a token. -/
theorem tokens_cons_of_some {cs literal : List Char} {token : α}
    (h : token? (ofChars mark token? cs).lead = some (token, literal)) :
    (ofChars mark token? (mark :: cs)).tokens = token :: (ofChars mark token? cs).tokens := by
  unfold ofChars at h ⊢
  rw [List.foldr_cons, step, if_pos rfl, h]
  rfl

/-- A mark that begins none. -/
theorem tokens_cons_of_none {cs : List Char} (h : token? (ofChars mark token? cs).lead = none) :
    (ofChars mark token? (mark :: cs)).tokens = (ofChars mark token? cs).tokens := by
  unfold ofChars at h ⊢
  rw [List.foldr_cons, step, if_pos rfl, h]
  rfl

/-- A text without tokens is all literal. -/
theorem lead_eq_of_rest_eq_nil {cs : List Char} (h : (ofChars mark token? cs).rest = []) :
    (ofChars mark token? cs).lead = cs := by
  induction cs with
  | nil => rfl
  | cons c cs ih =>
    by_cases hc : c = mark
    · subst hc
      unfold ofChars at h ih ⊢
      rw [List.foldr_cons, step, if_pos rfl] at h ⊢
      split at h
      · -- a token that begins here would be in the rest
        exact absurd h (List.cons_ne_nil _ _)
      · simp only [ih h]
    · rw [ofChars_cons_of_ne hc] at h ⊢
      simp only [ih h]

/-- Each token was read behind some mark. -/
theorem exists_of_mem_tokens {cs : List Char} {token : α}
    (h : token ∈ (ofChars mark token? cs).tokens) :
    ∃ cs' literal, token? cs' = some (token, literal) := by
  induction cs with
  | nil => simp [ofChars, tokens] at h
  | cons c cs ih =>
    by_cases hc : c = mark
    · subst hc
      cases hread : token? (ofChars c token? cs).lead with
      | none => exact ih (tokens_cons_of_none hread ▸ h)
      | some read =>
        obtain ⟨first, literal⟩ := read
        rw [tokens_cons_of_some hread] at h
        rcases List.mem_cons.1 h with rfl | h
        · exact ⟨_, literal, hread⟩
        · exact ih h
    · rw [ofChars_cons_of_ne hc] at h
      exact ih h

/-! ## Filling -/

/-- A text comes back when each token is filled with what it was read from. -/
theorem fill_ofChars {f : α → List Char}
    (h : ∀ {cs token rest}, token? cs = some (token, rest) → mark :: cs = f token ++ rest)
    (cs : List Char) : (ofChars mark token? cs).fill f = cs := by
  induction cs with
  | nil => rfl
  | cons c cs ih =>
    by_cases hc : c = mark
    · subst hc
      unfold ofChars at ih ⊢
      rw [List.foldr_cons, step, if_pos rfl]
      split
      · next token literal hread =>
        rw [fill] at ih ⊢
        rw [List.flatMap_cons, List.nil_append, ← h hread, List.cons_append, ih]
      · rw [fill] at ih ⊢
        rw [List.cons_append, ih]
    · rw [ofChars_cons_of_ne hc]
      rw [fill] at ih ⊢
      rw [List.cons_append, ih]

theorem fill_congr {f g : α → List Char} {cut : Cut α} (h : ∀ token ∈ cut.tokens, f token = g token) :
    cut.fill f = cut.fill g := by
  have hrest : cut.rest.flatMap (fun p => f p.1 ++ p.2) =
      cut.rest.flatMap fun p => g p.1 ++ p.2 := by
    rw [List.flatMap_def, List.flatMap_def]
    exact congrArg List.flatten (List.map_congr_left fun p hp => by
      rw [h p.1 (List.mem_map_of_mem hp)])
  rw [fill, fill, hrest]

/-! ## Characters -/

/-- The literal stretches consist of such characters. -/
structure Has (P : Char → Prop) (cut : Cut α) : Prop where
  lead : ∀ c ∈ cut.lead, P c
  rest : ∀ p ∈ cut.rest, ∀ c ∈ p.2, P c

/-- Literal stretches are parts of the text, if tokens are only ever read off it. -/
theorem has_ofChars {P : Char → Prop}
    (htoken : ∀ {cs token literal}, token? cs = some (token, literal) → ∀ c ∈ literal, c ∈ cs)
    {cs : List Char} (hcs : ∀ c ∈ cs, P c) : (ofChars mark token? cs).Has P := by
  induction cs with
  | nil => exact ⟨by simp [ofChars], by simp [ofChars]⟩
  | cons c cs ih =>
    have hcut := ih fun d hd => hcs d (List.mem_cons_of_mem c hd)
    have hlead : ∀ d ∈ c :: (ofChars mark token? cs).lead, P d := by
      intro d hd
      rcases List.mem_cons.1 hd with rfl | hd
      · exact hcs d List.mem_cons_self
      · exact hcut.lead d hd
    have hstep : ofChars mark token? (c :: cs) = step mark token? c (ofChars mark token? cs) := rfl
    rw [hstep]
    unfold step
    split
    · split
      · next token literal ht =>
        refine ⟨by simp, fun p hp d hd => ?_⟩
        rcases List.mem_cons.1 hp with rfl | hp
        · exact hcut.lead d (htoken ht d hd)
        · exact hcut.rest p hp d hd
      · exact ⟨hlead, hcut.rest⟩
    · exact ⟨hlead, hcut.rest⟩

/-- Filling adds the characters of what fills the tokens. -/
theorem Has.fill {P : Char → Prop} {cut : Cut α} (h : cut.Has P) {f : α → List Char}
    (hf : ∀ token ∈ cut.tokens, ∀ c ∈ f token, P c) : ∀ c ∈ cut.fill f, P c := by
  intro c hc
  rcases List.mem_append.1 hc with hc | hc
  · exact h.lead c hc
  · obtain ⟨p, hp, hc⟩ := List.mem_flatMap.1 hc
    rcases List.mem_append.1 hc with hc | hc
    · exact hf p.1 (List.mem_map_of_mem hp) c hc
    · exact h.rest p hp c hc

/-! ## The cut of a text -/

/-- A text is cut from the left: the literal stretches and the tokens, each with its mark and the
    text that it was read from, make up the text; each token is read where it stands, and the literal
    stretch behind it is what reading it leaves; and no mark in a literal stretch begins a token. -/
structure FromLeft (mark : Char) (token? : List Char → Option (α × List Char))
    (text : α → List Char) (cs : List Char) (cut : Cut α) : Prop where
  fill_eq : cut.fill (fun token => mark :: text token) = cs
  token : ∀ p ∈ cut.rest, token? (text p.1 ++ p.2) = some p
  literal : ∀ l ∈ cut.lead :: cut.rest.map Prod.snd, ∀ a b, l = a ++ mark :: b → token? b = none

section FromLeft

variable {text : α → List Char} {c d : Char} {cs lead literal : List Char} {token : α}
  {rest : List (α × List Char)}

/-- One more character in front of the first literal stretch. -/
theorem fromLeft_cons : FromLeft mark token? text (c :: cs) ⟨d :: lead, rest⟩ ↔
    d = c ∧ (c = mark → token? lead = none) ∧ FromLeft mark token? text cs ⟨lead, rest⟩ := by
  constructor
  · rintro ⟨hfill, htoken, hliteral⟩
    obtain ⟨rfl, htail⟩ := List.cons_eq_cons.1 hfill
    refine ⟨rfl, fun hd => ?_, htail, htoken, fun l hl a b heq => ?_⟩
    · exact hliteral _ List.mem_cons_self [] lead (by rw [hd, List.nil_append])
    · rcases List.mem_cons.1 hl with rfl | hl
      · exact hliteral _ List.mem_cons_self (d :: a) b (by rw [heq, List.cons_append])
      · exact hliteral l (List.mem_cons_of_mem _ hl) a b heq
  · rintro ⟨rfl, hmark, hfill, htoken, hliteral⟩
    refine ⟨congrArg (d :: ·) hfill, htoken, fun l hl a b heq => ?_⟩
    rcases List.mem_cons.1 hl with rfl | hl
    · cases a with
      | nil =>
        obtain ⟨hd, rfl⟩ := List.cons_eq_cons.1 heq
        exact hmark hd
      | cons x a => exact hliteral lead List.mem_cons_self a b (List.cons_eq_cons.1 heq).2
    · exact hliteral l (List.mem_cons_of_mem _ hl) a b heq

/-- A token at the beginning, in front of a text that begins with what it was read from. -/
theorem fromLeft_token (hmark : mark ∉ text token) :
    FromLeft mark token? text (c :: cs) ⟨[], (token, literal) :: rest⟩ ↔
      c = mark ∧ token? (text token ++ literal) = some (token, literal) ∧
        FromLeft mark token? text cs ⟨text token ++ literal, rest⟩ := by
  constructor
  · rintro ⟨hfill, htoken, hliteral⟩
    obtain ⟨rfl, htail⟩ := List.cons_eq_cons.1 hfill
    refine ⟨rfl, htoken _ List.mem_cons_self, htail,
      fun p hp => htoken p (List.mem_cons_of_mem _ hp), fun l hl a b heq => ?_⟩
    rcases List.mem_cons.1 hl with rfl | hl
    · -- the text of a token holds no mark
      rcases List.append_eq_append_iff.1 heq with ⟨a', rfl, hbehind⟩ | ⟨b', htext, hb⟩
      · exact hliteral literal (by simp) a' b hbehind
      · cases b' with
        | nil => exact hliteral literal (by simp) [] b hb.symm
        | cons x b' =>
          obtain ⟨rfl, -⟩ := List.cons_eq_cons.1 hb
          exact absurd (by simp [htext]) hmark
    · exact hliteral l (by simp [hl]) a b heq
  · rintro ⟨rfl, hread, hfill, htoken, hliteral⟩
    refine ⟨congrArg (c :: ·) hfill, fun p hp => ?_, fun l hl a b heq => ?_⟩
    · rcases List.mem_cons.1 hp with rfl | hp
      · exact hread
      · exact htoken p hp
    · rcases List.mem_cons.1 hl with rfl | hl
      · simp at heq
      · rcases List.mem_cons.1 hl with rfl | hl
        · exact hliteral _ List.mem_cons_self (text token ++ a) b (by rw [heq, List.append_assoc])
        · exact hliteral l (List.mem_cons_of_mem _ hl) a b heq

/-- A text is cut from the left in one way, which is the cut from the right. -/
theorem fromLeft_iff
    (htext : ∀ {cs token rest}, token? cs = some (token, rest) → cs = text token ++ rest)
    (hmark : ∀ {cs token rest}, token? cs = some (token, rest) → mark ∉ text token)
    {cut : Cut α} : FromLeft mark token? text cs cut ↔ cut = ofChars mark token? cs := by
  constructor
  · intro h
    obtain ⟨lead, rest⟩ := cut
    induction cs generalizing lead rest with
    | nil =>
      obtain ⟨rfl, hrest⟩ := List.append_eq_nil_iff.1 h.fill_eq
      cases rest with
      | nil => rfl
      | cons p rest => simp at hrest
    | cons c cs ih =>
      cases lead with
      | cons d lead =>
        obtain ⟨rfl, hnone, hcut⟩ := fromLeft_cons.1 h
        have hcs := ih lead rest hcut
        by_cases hd : d = mark
        · unfold ofChars at hcs ⊢
          rw [List.foldr_cons, ← hcs, step, if_pos hd, hnone hd]
        · rw [ofChars_cons_of_ne hd, ← hcs]
      | nil =>
        cases rest with
        | nil => exact absurd h.fill_eq (by simp [fill])
        | cons p rest =>
          obtain ⟨token, literal⟩ := p
          have hread := h.token _ List.mem_cons_self
          obtain ⟨rfl, -, hcut⟩ := (fromLeft_token (hmark hread)).1 h
          have hcs := ih _ rest hcut
          unfold ofChars at hcs ⊢
          rw [List.foldr_cons, ← hcs, step, if_pos rfl, hread]
  · rintro rfl
    induction cs with
    | nil => exact ⟨rfl, by simp [ofChars], by simp [ofChars]⟩
    | cons c cs ih =>
      by_cases hc : c = mark
      · have hcut : ofChars mark token? (c :: cs) = step mark token? c (ofChars mark token? cs) := rfl
        rw [hcut, step, if_pos hc]
        cases hread : token? (ofChars mark token? cs).lead with
        | none => exact fromLeft_cons.2 ⟨rfl, fun _ => hread, ih⟩
        | some p =>
          obtain ⟨token, literal⟩ := p
          have hlead := htext hread
          refine (fromLeft_token (hmark hread)).2 ⟨hc, hlead ▸ hread, ?_⟩
          rw [← hlead]
          exact ih
      · rw [ofChars_cons_of_ne hc]
        exact fromLeft_cons.2 ⟨rfl, fun h => absurd h hc, ih⟩

end FromLeft

end Cut

end MacroAsm.Text
