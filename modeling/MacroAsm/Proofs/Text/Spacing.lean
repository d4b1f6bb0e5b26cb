import MacroAsm.Proofs.Text.Cuts
import MacroAsm.Proofs.Text.Trimming
import Mathlib.Data.List.Chain

set_option autoImplicit false

/-! # Normal spacing

Whether a text is in normal spacing is seen from its ends and from each two characters that stand
beside each other (`normalize_eq_self_iff`): it is trimmed, no blank but the space occurs, and a space
has on both sides characters that are neither blanks nor commas. So a text can be taken apart beside
such a character, and each part looked at alone. What fills a token that begins and ends with such
characters leaves the spacing around the token as it was (`Cut.normalize_fill_iff`). -/

namespace MacroAsm.Text

/-- Whether a character is neither a blank nor a comma. -/
def isSolid (c : Char) : Bool :=
  !isBlank c && c != ','

theorem not_isBlank_of_isSolid {c : Char} (h : isSolid c = true) : isBlank c = false := by
  rw [isSolid, Bool.and_eq_true, Bool.not_eq_true'] at h
  exact h.1

theorem ne_comma_of_isSolid {c : Char} (h : isSolid c = true) : c ≠ ',' := by
  rw [isSolid, Bool.and_eq_true, bne_iff_ne] at h
  exact h.2

theorem isSolid_of_ne {c : Char} (hblank : isBlank c = false) (hcomma : c ≠ ',') :
    isSolid c = true := by
  simp [isSolid, hblank, hcomma]

/-- The characters behind the comma in ASCII are solid. -/
theorem isSolid_of_le {c : Char} (hfirst : '-' ≤ c) (hlast : c ≤ '~') : isSolid c = true := by
  have hlow : 45 ≤ c.toNat := hfirst
  have hhigh : c.toNat ≤ 126 := hlast
  refine isSolid_of_ne ?_ fun h => absurd (h ▸ hfirst) (by decide)
  simp only [isBlank, Bool.or_eq_false_iff, Bool.and_eq_false_iff, beq_eq_false_iff_ne,
    decide_eq_false_iff_not]
  omega

theorem isSolid_of_isDigit {c : Char} (h : c.isDigit = true) : isSolid c = true := by
  rw [Char.isDigit, Bool.and_eq_true, decide_eq_true_eq, decide_eq_true_eq] at h
  exact isSolid_of_le (Char.le_trans (by decide) h.1) (Char.le_trans h.2 (by decide))

theorem isSolid_toString (n : Nat) : ∀ c ∈ (toString n).toList, isSolid c = true := by
  intro c hc
  refine isSolid_of_isDigit (Nat.isDigit_of_mem_toDigits (by omega) (by omega) (n := n) (b := 10) ?_)
  simpa using hc

/-! ## Characters beside each other -/

/-- Whether a character may stand in front of another: beside a blank only solid ones. -/
def Beside (c d : Char) : Prop :=
  (isBlank c = true → isSolid d = true) ∧ (isBlank d = true → isSolid c = true)

theorem beside_of_isSolid_left {c : Char} (h : isSolid c = true) (d : Char) : Beside c d :=
  ⟨fun hblank => absurd hblank (by simp [not_isBlank_of_isSolid h]), fun _ => h⟩

theorem beside_of_isSolid_right {d : Char} (h : isSolid d = true) (c : Char) : Beside c d :=
  ⟨fun _ => h, fun hblank => absurd hblank (by simp [not_isBlank_of_isSolid h])⟩

theorem beside_comma_left {d : Char} : Beside ',' d ↔ isBlank d = false := by
  constructor
  · intro h
    exact Bool.eq_false_iff.2 fun hblank => absurd (h.2 hblank) (by decide)
  · intro h
    exact ⟨fun hblank => absurd hblank (by decide), fun hblank => absurd hblank (by simp [h])⟩

theorem beside_comma_right {c : Char} : Beside c ',' ↔ isBlank c = false := by
  constructor
  · intro h
    exact Bool.eq_false_iff.2 fun hblank => absurd (h.1 hblank) (by decide)
  · intro h
    exact ⟨fun hblank => absurd hblank (by simp [h]), fun hblank => absurd hblank (by decide)⟩

/-- A text whose blanks are single spaces and not beside a comma; it may begin or end with one. -/
structure Spaced (cs : List Char) : Prop where
  blanks : ∀ c ∈ cs, isBlank c = true → c = ' '
  beside : cs.IsChain Beside

theorem spaced_nil : Spaced [] :=
  ⟨by simp, List.isChain_nil⟩

theorem spaced_cons {c : Char} {cs : List Char} :
    Spaced (c :: cs) ↔
      (isBlank c = true → c = ' ') ∧ (∀ d ∈ cs.head?, Beside c d) ∧ Spaced cs := by
  constructor
  · intro h
    obtain ⟨hhead, htail⟩ := List.isChain_cons.1 h.beside
    exact ⟨h.blanks c List.mem_cons_self, hhead,
      fun d hd => h.blanks d (List.mem_cons_of_mem c hd), htail⟩
  · rintro ⟨hc, hhead, hcs⟩
    exact ⟨List.forall_mem_cons.2 ⟨hc, hcs.blanks⟩, List.isChain_cons.2 ⟨hhead, hcs.beside⟩⟩

theorem spaced_append {a b : List Char} :
    Spaced (a ++ b) ↔
      Spaced a ∧ Spaced b ∧ ∀ c ∈ a.getLast?, ∀ d ∈ b.head?, Beside c d := by
  constructor
  · intro h
    obtain ⟨ha, hb, hbeside⟩ := List.isChain_append.1 h.beside
    obtain ⟨hblanks, hblanks'⟩ := List.forall_mem_append.1 h.blanks
    exact ⟨⟨hblanks, ha⟩, ⟨hblanks', hb⟩, hbeside⟩
  · rintro ⟨ha, hb, hbeside⟩
    exact ⟨List.forall_mem_append.2 ⟨ha.blanks, hb.blanks⟩,
      List.isChain_append.2 ⟨ha.beside, hb.beside, hbeside⟩⟩

theorem Spaced.of_suffix {a b : List Char} (hb : Spaced b) (h : a <:+ b) : Spaced a := by
  obtain ⟨front, rfl⟩ := h
  exact (spaced_append.1 hb).2.1

theorem spaced_of_forall_isSolid {cs : List Char} (h : ∀ c ∈ cs, isSolid c = true) : Spaced cs := by
  induction cs with
  | nil => exact spaced_nil
  | cons c cs ih =>
    have hc := h c List.mem_cons_self
    refine spaced_cons.2 ⟨fun hblank => ?_, fun d _ => beside_of_isSolid_left hc d,
      ih fun d hd => h d (List.mem_cons_of_mem c hd)⟩
    rw [not_isBlank_of_isSolid hc] at hblank
    cases hblank

theorem spaced_comma : Spaced [','] :=
  spaced_cons.2 ⟨fun h => absurd h (by decide), by simp, spaced_nil⟩

/-- Between commas the ends of a text count as well. -/
theorem spaced_between_commas {cs : List Char} :
    Spaced (',' :: (cs ++ [','])) ↔ Trimmed cs ∧ Spaced cs := by
  rw [spaced_cons, spaced_append]
  constructor
  · rintro ⟨-, hfirst, hcs, -, hlast⟩
    refine ⟨⟨fun c hc => beside_comma_left.1 (hfirst c ?_), fun c hc => ?_⟩, hcs⟩
    · rw [List.head?_append, Option.mem_def.1 hc]
      rfl
    · exact beside_comma_right.1 (hlast c hc ',' rfl)
  · rintro ⟨htrimmed, hcs⟩
    refine ⟨fun h => absurd h (by decide), fun d hd => beside_comma_left.2 ?_, hcs, spaced_comma,
      fun c hc d hd => ?_⟩
    · cases cs with
      | nil =>
        obtain rfl := Option.some.inj hd
        decide
      | cons c cs => exact htrimmed.head d hd
    · obtain rfl := Option.some.inj hd
      exact beside_comma_right.2 (htrimmed.last c hc)

/-! ## Words -/

/-- A text that begins and ends with solid characters. -/
structure Firm (cs : List Char) : Prop where
  head : ∃ c ∈ cs.head?, isSolid c = true
  last : ∃ c ∈ cs.getLast?, isSolid c = true

theorem firm_of_forall_isSolid {cs : List Char} (hne : cs ≠ [])
    (h : ∀ c ∈ cs, isSolid c = true) : Firm cs :=
  ⟨⟨cs.head hne, List.head?_eq_some_head hne, h _ (List.head_mem hne)⟩,
    ⟨cs.getLast hne, List.getLast?_eq_some_getLast hne, h _ (List.getLast_mem hne)⟩⟩

theorem Firm.trimmed {cs : List Char} (h : Firm cs) : Trimmed cs := by
  obtain ⟨⟨c, hc, hsolid⟩, ⟨d, hd, hsolid'⟩⟩ := h
  refine ⟨fun e he => ?_, fun e he => ?_⟩
  · obtain rfl := Option.mem_unique hc he
    exact not_isBlank_of_isSolid hsolid
  · obtain rfl := Option.mem_unique hd he
    exact not_isBlank_of_isSolid hsolid'

theorem Firm.trimStart_append {w : List Char} (h : Firm w) (rest : List Char) :
    trimStart (w ++ rest) = w ++ rest := by
  obtain ⟨c, hc, hsolid⟩ := h.head
  obtain ⟨w, rfl⟩ := List.head?_eq_some_iff.1 hc
  exact trimStart_cons (not_isBlank_of_isSolid hsolid) _

/-- What stands on both sides of a firm text does not depend on it. -/
theorem Firm.spaced_append_append {w : List Char} (hw : Firm w) {a b : List Char} :
    Spaced (a ++ (w ++ b)) ↔ Spaced a ∧ Spaced w ∧ Spaced b := by
  obtain ⟨⟨c, hc, hsolid⟩, ⟨d, hd, hsolid'⟩⟩ := hw
  have hhead : c ∈ (w ++ b).head? := by
    rw [List.head?_append, Option.mem_def.1 hc]
    rfl
  rw [spaced_append, spaced_append]
  constructor
  · rintro ⟨ha, ⟨hw, hb, -⟩, -⟩
    exact ⟨ha, hw, hb⟩
  · rintro ⟨ha, hw, hb⟩
    refine ⟨ha, ⟨hw, hb, fun x hx y _ => ?_⟩, fun x _ y hy => ?_⟩
    · obtain rfl := Option.mem_unique hd hx
      exact beside_of_isSolid_left hsolid' y
    · obtain rfl := Option.mem_unique hhead hy
      exact beside_of_isSolid_right hsolid x

/-! ## Single spaces -/

/-- Two characters of which the first is no blank or the second is none. -/
def Apart (c d : Char) : Prop :=
  isBlank c = true → isBlank d = false

/-- A text whose blanks are single spaces. -/
structure Collapsed (cs : List Char) : Prop where
  blanks : ∀ c ∈ cs, isBlank c = true → c = ' '
  apart : cs.IsChain Apart

theorem collapsed_cons {c : Char} {cs : List Char} (hc : isBlank c = true → c = ' ')
    (happart : ∀ d ∈ cs.head?, Apart c d) (h : Collapsed cs) : Collapsed (c :: cs) :=
  ⟨List.forall_mem_cons.2 ⟨hc, h.blanks⟩, List.isChain_cons.2 ⟨happart, h.apart⟩⟩

theorem Collapsed.tail {c : Char} {cs : List Char} (h : Collapsed (c :: cs)) : Collapsed cs :=
  ⟨fun d hd => h.blanks d (List.mem_cons_of_mem c hd), h.apart.tail⟩

theorem Spaced.collapsed {cs : List Char} (h : Spaced cs) : Collapsed cs :=
  ⟨h.blanks, h.beside.imp fun _ _ hbeside hblank => not_isBlank_of_isSolid (hbeside.1 hblank)⟩

theorem collapseStep_of_not_blank {c : Char} (h : isBlank c = false) (rest : List Char) :
    collapseStep c rest = c :: rest := by
  unfold collapseStep
  rw [if_neg (by simp [h])]

theorem collapsed_collapseStep {c : Char} {rest : List Char} (h : Collapsed rest) :
    Collapsed (collapseStep c rest) := by
  unfold collapseStep
  split
  · split
    · exact h
    · next hspace =>
      refine collapsed_cons (fun _ => rfl) (fun d hd _ => ?_) h
      -- the rest does not begin with a space, and it has no other blanks
      obtain ⟨rest, rfl⟩ := List.head?_eq_some_iff.1 hd
      refine Bool.eq_false_iff.2 fun hblank => hspace rest ?_
      rw [h.blanks d List.mem_cons_self hblank]
  · next hblank =>
    exact collapsed_cons (fun h => absurd h hblank) (fun d _ h => absurd h hblank) h

theorem collapsed_collapse (cs : List Char) : Collapsed (collapse cs) := by
  induction cs with
  | nil => exact ⟨by simp [collapse], List.isChain_nil⟩
  | cons c cs ih => exact collapsed_collapseStep ih

theorem collapse_eq_self {cs : List Char} (h : Collapsed cs) : collapse cs = cs := by
  induction cs with
  | nil => rfl
  | cons c cs ih =>
    have hstep : collapse (c :: cs) = collapseStep c cs := congrArg (collapseStep c) (ih h.tail)
    rw [hstep]
    unfold collapseStep
    split
    · next hblank =>
      have hc := h.blanks c List.mem_cons_self hblank
      split
      · -- two spaces would stand beside each other
        have hspace := (List.isChain_cons.1 h.apart).1 ' ' rfl hblank
        simp [isBlank] at hspace
      · rw [hc]
    · rfl

/-! ## Spaces beside commas -/

theorem head?_tightenStep {c : Char} (h : isBlank c = false) (rest : List Char) :
    (tightenStep c rest).head? = some c := by
  unfold tightenStep
  split
  · next hcomma => rw [hcomma, List.head?_cons]
  · rw [if_neg (by simp [h]), List.head?_cons]

theorem tightenStep_of_isSolid {c : Char} (h : isSolid c = true) (rest : List Char) :
    tightenStep c rest = c :: rest := by
  unfold tightenStep
  rw [if_neg (ne_comma_of_isSolid h), if_neg (by simp [not_isBlank_of_isSolid h])]

theorem spaced_tightenStep {c : Char} {rest : List Char} (h : Spaced rest)
    (hc : isBlank c = true → c = ' ') (happart : ∀ d ∈ rest.head?, Apart c d) :
    Spaced (tightenStep c rest) := by
  unfold tightenStep
  split
  · refine spaced_cons.2 ⟨fun hblank => absurd hblank (by decide), fun d hd => ?_,
      h.of_suffix (List.dropWhile_suffix isBlank)⟩
    have hhead := List.head?_dropWhile_not isBlank rest
    rw [← trimStart, Option.mem_def.1 hd] at hhead
    exact beside_comma_left.2 hhead
  · next hcomma =>
    split
    · next hblank =>
      split
      · exact h
      · next hfirst =>
        refine spaced_cons.2 ⟨hc, fun d hd => ?_, h⟩
        have hsolid : isSolid d = true := by
          refine isSolid_of_ne (happart d hd hblank) fun hd' => ?_
          obtain ⟨rest, rfl⟩ := List.head?_eq_some_iff.1 hd
          exact hfirst rest (by rw [hd'])
        exact beside_of_isSolid_right hsolid c
    · next hblank =>
      have hsolid := isSolid_of_ne (Bool.eq_false_iff.2 hblank) hcomma
      exact spaced_cons.2 ⟨hc, fun d _ => beside_of_isSolid_left hsolid d, h⟩

theorem spaced_tighten {cs : List Char} (h : Collapsed cs) : Spaced (tighten cs) := by
  induction cs with
  | nil => exact spaced_nil
  | cons c cs ih =>
    refine spaced_tightenStep (ih h.tail) (h.blanks c List.mem_cons_self) fun d hd hblank => ?_
    -- behind a blank stands another character, and the tightened text begins with it
    cases cs with
    | nil => cases hd
    | cons e cs =>
      have he : isBlank e = false := (List.isChain_cons.1 h.apart).1 e rfl hblank
      have hhead : (tighten (e :: cs)).head? = some e := head?_tightenStep he _
      obtain rfl := Option.mem_unique hhead hd
      exact he

theorem tighten_eq_self {cs : List Char} (h : Spaced cs) : tighten cs = cs := by
  induction cs with
  | nil => rfl
  | cons c cs ih =>
    obtain ⟨-, hbeside, hcs⟩ := spaced_cons.1 h
    have hstep : tighten (c :: cs) = tightenStep c cs := congrArg (tightenStep c) (ih hcs)
    rw [hstep]
    unfold tightenStep
    split
    · next hcomma =>
      subst hcomma
      rw [trimStart_eq_self fun d hd => beside_comma_left.1 (hbeside d hd)]
    · split
      · next hblank =>
        split
        · have hsolid := (hbeside ',' rfl).1 hblank
          simp [isSolid] at hsolid
        · rfl
      · rfl

/-! ## Normal spacing -/

theorem getLast?_cons_of_eq_some {c d : Char} {rest : List Char} (h : rest.getLast? = some d) :
    (c :: rest).getLast? = some d := by
  obtain ⟨front, rfl⟩ := List.getLast?_eq_some_iff.1 h
  exact List.getLast?_concat (l := c :: front)

theorem getLast?_trimStart {d : Char} (hd : isBlank d = false) {cs : List Char}
    (h : cs.getLast? = some d) : (trimStart cs).getLast? = some d := by
  obtain ⟨front, rfl⟩ := List.getLast?_eq_some_iff.1 h
  have hfront : trimStart (front ++ [d]) = trimStart front ++ [d] := by
    induction front with
    | nil => exact trimStart_eq_self (by simpa using hd)
    | cons c front ih =>
      unfold trimStart at ih ⊢
      rw [List.cons_append, List.dropWhile_cons, List.dropWhile_cons]
      split
      · exact ih List.getLast?_concat
      · rfl
  rw [hfront, List.getLast?_concat]

/-- The ends of a trimmed text stay when steps go over it that keep characters other than blanks. -/
theorem trimmed_foldr {step : Char → List Char → List Char}
    (hone : ∀ c, isBlank c = false → step c [] = [c])
    (hhead : ∀ c rest, isBlank c = false → (step c rest).head? = some c)
    (hlast : ∀ c rest d, isBlank d = false → rest.getLast? = some d →
      (step c rest).getLast? = some d)
    {cs : List Char} (h : Trimmed cs) : Trimmed (cs.foldr step []) := by
  rcases List.eq_nil_or_concat' cs with rfl | ⟨front, d, rfl⟩
  · exact h
  have hd : isBlank d = false := h.last d List.getLast?_concat
  have hend : ((front ++ [d]).foldr step []).getLast? = some d := by
    clear h
    induction front with
    | nil =>
      rw [List.nil_append, List.foldr_cons, List.foldr_nil, hone d hd]
      rfl
    | cons c front ih => exact hlast c _ d hd ih
  refine ⟨fun c hc => ?_, fun c hc => ?_⟩
  · cases front with
    | nil =>
      rw [List.nil_append, List.foldr_cons, hhead d _ hd] at hc
      exact Option.some.inj hc ▸ hd
    | cons e front =>
      have he : isBlank e = false := h.head e rfl
      rw [List.cons_append, List.foldr_cons, hhead e _ he] at hc
      exact Option.some.inj hc ▸ he
  · rw [hend] at hc
    exact Option.some.inj hc ▸ hd

theorem trimmed_collapse {cs : List Char} (h : Trimmed cs) : Trimmed (collapse cs) := by
  refine trimmed_foldr (fun c hc => ?_) (fun c rest hc => ?_) (fun c rest d hd hlast => ?_) h
  · rw [collapseStep_of_not_blank hc]
  · rw [collapseStep_of_not_blank hc, List.head?_cons]
  · unfold collapseStep
    split
    · split
      · exact hlast
      · exact getLast?_cons_of_eq_some hlast
    · exact getLast?_cons_of_eq_some hlast

theorem trimmed_tighten {cs : List Char} (h : Trimmed cs) : Trimmed (tighten cs) := by
  refine trimmed_foldr (fun c hc => ?_) (fun c rest hc => ?_) (fun c rest d hd hlast => ?_) h
  · by_cases hcomma : c = ','
    · subst hcomma
      rfl
    · rw [tightenStep_of_isSolid (isSolid_of_ne hc hcomma)]
  · exact head?_tightenStep hc rest
  · unfold tightenStep
    split
    · exact getLast?_cons_of_eq_some (getLast?_trimStart hd hlast)
    · split
      · split
        · exact hlast
        · exact getLast?_cons_of_eq_some hlast
      · exact getLast?_cons_of_eq_some hlast

theorem trimmed_normalize (cs : List Char) : Trimmed (normalize cs) :=
  trimmed_tighten (trimmed_collapse (trimmed_trim cs))

theorem spaced_normalize (cs : List Char) : Spaced (normalize cs) :=
  spaced_tighten (collapsed_collapse (trim cs))

/-- **Normal spacing.** A text is in normal spacing exactly if it is trimmed, its blanks are single
    spaces, and none of them is beside a comma. -/
theorem normalize_eq_self_iff {cs : List Char} :
    normalize cs = cs ↔ Trimmed cs ∧ Spaced cs := by
  constructor
  · intro h
    rw [← h]
    exact ⟨trimmed_normalize cs, spaced_normalize cs⟩
  · rintro ⟨htrimmed, hspaced⟩
    rw [normalize, trim_eq_self htrimmed, collapse_eq_self hspaced.collapsed,
      tighten_eq_self hspaced]

theorem normalize_of_forall {cs : List Char} (h : ∀ c ∈ cs, isBlank c = false) :
    normalize cs = cs := by
  refine normalize_eq_self_iff.2 ⟨trimmed_of_forall h, ?_⟩
  induction cs with
  | nil => exact spaced_nil
  | cons c cs ih =>
    obtain ⟨hc, hcs⟩ := List.forall_mem_cons.1 h
    refine spaced_cons.2 ⟨fun hblank => absurd hblank (by simp [hc]), fun d hd => ?_, ih hcs⟩
    have hd : isBlank d = false := hcs d (List.mem_of_mem_head? hd)
    exact ⟨fun hblank => absurd hblank (by simp [hc]), fun hblank => absurd hblank (by simp [hd])⟩

@[simp] theorem normalize_trim (cs : List Char) : normalize (trim cs) = normalize cs := by
  rw [normalize, trim_trim, normalize]

@[simp] theorem normalize_normalize (cs : List Char) : normalize (normalize cs) = normalize cs :=
  normalize_eq_self_iff.2 ⟨trimmed_normalize cs, spaced_normalize cs⟩

theorem Firm.normalize_eq_self_iff {cs : List Char} (h : Firm cs) :
    normalize cs = cs ↔ Spaced cs := by
  rw [Text.normalize_eq_self_iff, and_iff_right h.trimmed]

/-! ## Characters that are kept -/

theorem mem_trimStart {c : Char} {cs : List Char} (hc : c ∈ cs) (hblank : isBlank c = false) :
    c ∈ trimStart cs := by
  rw [← List.takeWhile_append_dropWhile (p := isBlank) (l := cs)] at hc
  rcases List.mem_append.1 hc with hc | hc
  · exact absurd (blank_takeWhile cs c hc) (by simp [hblank])
  · exact hc

theorem mem_trim {c : Char} {cs : List Char} (hc : c ∈ cs) (hblank : isBlank c = false) :
    c ∈ trim cs := by
  rw [trim, trimEnd_eq, List.mem_reverse]
  exact mem_trimStart (List.mem_reverse.2 (mem_trimStart hc hblank)) hblank

theorem mem_collapseStep {c d : Char} {rest : List Char} (hblank : isBlank c = false)
    (h : c = d ∨ c ∈ rest) : c ∈ collapseStep d rest := by
  unfold collapseStep
  rcases h with rfl | h
  · simp [hblank]
  · split
    · split
      · exact h
      · exact List.mem_cons_of_mem _ h
    · exact List.mem_cons_of_mem d h

theorem mem_tightenStep {c d : Char} {rest : List Char} (hblank : isBlank c = false)
    (h : c = d ∨ c ∈ rest) : c ∈ tightenStep d rest := by
  unfold tightenStep
  split
  · next hd =>
    rcases h with rfl | h
    · rw [hd]
      exact List.mem_cons_self
    · exact List.mem_cons_of_mem _ (mem_trimStart h hblank)
  · rcases h with rfl | h
    · simp [hblank]
    · split
      · split
        · exact h
        · exact List.mem_cons_of_mem d h
      · exact List.mem_cons_of_mem d h

/-- Spacing is all that a normal form drops. -/
theorem mem_normalize {c : Char} {cs : List Char} (hc : c ∈ cs) (hblank : isBlank c = false) :
    c ∈ normalize cs := by
  have hfold {step : Char → List Char → List Char}
      (hstep : ∀ d rest, c = d ∨ c ∈ rest → c ∈ step d rest) :
      ∀ ds : List Char, c ∈ ds → c ∈ ds.foldr step [] := by
    intro ds
    induction ds with
    | nil => exact id
    | cons d ds ih =>
      intro hmem
      exact hstep d _ ((List.mem_cons.1 hmem).imp id ih)
  have hcollapse := hfold (fun _ _ => mem_collapseStep hblank) _ (mem_trim hc hblank)
  exact hfold (fun _ _ => mem_tightenStep hblank) _ hcollapse

/-! ## Filled tokens -/

namespace Cut

variable {α : Type} {f g : α → List Char}

/-- Firm texts in the place of others change nothing around them. -/
theorem spaced_flatMap_iff {rest : List (α × List Char)} (hf : ∀ p ∈ rest, Firm (f p.1))
    (hg : ∀ p ∈ rest, Firm (g p.1) ∧ Spaced (g p.1)) (a b : List Char) :
    Spaced (a ++ (rest.flatMap (fun p => f p.1 ++ p.2) ++ b)) ↔
      Spaced (a ++ (rest.flatMap (fun p => g p.1 ++ p.2) ++ b)) ∧
        ∀ p ∈ rest, Spaced (f p.1) := by
  induction rest generalizing a with
  | nil => simp
  | cons p rest ih =>
    obtain ⟨hfp, hfrest⟩ := List.forall_mem_cons.1 hf
    obtain ⟨⟨hgp, hspaced⟩, hgrest⟩ := List.forall_mem_cons.1 hg
    -- the literal stretch behind the first token is what the others stand behind
    simp only [List.flatMap_cons, List.append_assoc]
    rw [hfp.spaced_append_append, hgp.spaced_append_append, ih hfrest hgrest,
      List.forall_mem_cons, and_iff_right hspaced]
    constructor
    · rintro ⟨ha, hw, hb, hrest⟩
      exact ⟨⟨ha, hb⟩, hw, hrest⟩
    · rintro ⟨⟨ha, hb⟩, hw, hrest⟩
      exact ⟨ha, hw, hb, hrest⟩

/-- **A filled text is in normal spacing exactly if what fills it is**, provided that the text was
    before its tokens were filled. -/
theorem normalize_fill_iff {cut : Cut α} (hf : ∀ token ∈ cut.tokens, Firm (f token))
    (hg : ∀ token ∈ cut.tokens, Firm (g token) ∧ Spaced (g token))
    (hcut : normalize (cut.fill g) = cut.fill g) :
    normalize (cut.fill f) = cut.fill f ↔
      ∀ token ∈ cut.tokens, normalize (f token) = f token := by
  have hf' : ∀ p ∈ cut.rest, Firm (f p.1) := fun p hp => hf p.1 (List.mem_map_of_mem hp)
  have hg' : ∀ p ∈ cut.rest, Firm (g p.1) ∧ Spaced (g p.1) :=
    fun p hp => hg p.1 (List.mem_map_of_mem hp)
  have hfill (h : α → List Char) : normalize (cut.fill h) = cut.fill h ↔
      Spaced ((',' :: cut.lead) ++ (cut.rest.flatMap (fun p => h p.1 ++ p.2) ++ [','])) := by
    rw [normalize_eq_self_iff, ← spaced_between_commas, fill, List.cons_append, List.append_assoc]
  rw [hfill f, spaced_flatMap_iff hf' hg', ← hfill g, and_iff_right hcut, tokens,
    List.forall_mem_map]
  exact forall₂_congr fun p hp => (hf' p hp).normalize_eq_self_iff.symm

end Cut

end MacroAsm.Text
