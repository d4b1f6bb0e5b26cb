import MacroAsm.Proofs.Template.Rendering

set_option autoImplicit false

/-! # Places of a template

A template is cut as a whole at its leftmost longest places (`Template.CutAtPlaces`), and every place
is replaced in front of the text that follows it (`Template.filledFrom`). Filling line by line comes
to the same (`Template.render_eq_filled`): a place lies within one line, and what a value inserts
depends on the line of the template, not on the text that was written so far. -/

namespace MacroAsm.Template

/-! ## The cut of a whole text -/

/-- What a name consists of: the letters from `a` to `z` and the underscore. -/
def InName (c : Char) : Prop :=
  ('a' ≤ c ∧ c ≤ 'z') ∨ c = '_'

/-- A text is cut at its places, from the left and each as long as it can be: a place is a mark and
    characters of a name, no literal stretch behind one goes on with the name, and no literal
    stretch holds a place of its own. -/
structure CutAtPlaces (cs : List Char) (cut : Text.Cut (List Char)) : Prop where
  fill_eq : cut.fill ('%' :: ·) = cs
  name : ∀ p ∈ cut.rest, p.1 ≠ [] ∧ ∀ c ∈ p.1, InName c
  longest : ∀ p ∈ cut.rest, ∀ c ∈ p.2.head?, ¬ InName c
  leftmost : ∀ literal ∈ cut.lead :: cut.rest.map Prod.snd, ∀ a c b,
    literal = a ++ '%' :: c :: b → ¬ InName c

theorem isNameChar_iff {c : Char} : isNameChar c = true ↔ InName c := by
  simp [isNameChar, InName]

theorem isNameChar_eq_false_iff {c : Char} : isNameChar c = false ↔ ¬ InName c := by
  rw [← isNameChar_iff, Bool.not_eq_true]

/-- A name begins as the text in front of the next place does. -/
theorem takeWhile_lead (cs : List Char) :
    (cut cs).lead.takeWhile isNameChar = cs.takeWhile isNameChar := by
  induction cs with
  | nil => rfl
  | cons c cs ih =>
    by_cases hc : c = '%'
    · subst hc
      have hmark : isNameChar '%' = false := by decide
      have hlead : ((cut ('%' :: cs)).lead).takeWhile isNameChar = [] := by
        unfold cut Text.Cut.ofChars
        rw [List.foldr_cons, Text.Cut.step, if_pos rfl]
        split
        · rfl
        · rw [List.takeWhile_cons_of_neg (by simp [hmark])]
      rw [hlead, List.takeWhile_cons_of_neg (by simp [hmark])]
    · unfold cut at ih ⊢
      rw [Text.Cut.ofChars_cons_of_ne hc, List.takeWhile_cons, List.takeWhile_cons, ih]

/-- A mark that no name follows is literal. -/
theorem cut_cons_of_nil {cs : List Char} (h : cs.takeWhile isNameChar = []) :
    cut ('%' :: cs) = ⟨'%' :: (cut cs).lead, (cut cs).rest⟩ := by
  have hnone : Text.readRun? isNameChar (cut cs).lead = none := by
    rw [Text.readRun?, takeWhile_lead, h]
  unfold cut Text.Cut.ofChars at hnone ⊢
  rw [List.foldr_cons, Text.Cut.step, if_pos rfl, hnone]

/-- A mark and the longest name behind it are a place. -/
theorem cut_cons_of_ne_nil {cs : List Char} (h : cs.takeWhile isNameChar ≠ []) :
    ∃ literal, (cut cs).lead = cs.takeWhile isNameChar ++ literal ∧
      cut ('%' :: cs) = ⟨[], (cs.takeWhile isNameChar, literal) :: (cut cs).rest⟩ := by
  refine ⟨(cut cs).lead.dropWhile isNameChar, ?_, ?_⟩
  · rw [← takeWhile_lead, List.takeWhile_append_dropWhile]
  · have hsome : Text.readRun? isNameChar (cut cs).lead =
        some (cs.takeWhile isNameChar, (cut cs).lead.dropWhile isNameChar) := by
      rw [← takeWhile_lead] at h ⊢
      unfold Text.readRun?
      split
      · next hnil => exact absurd hnil h
      · rfl
    unfold cut Text.Cut.ofChars at hsome ⊢
    rw [List.foldr_cons, Text.Cut.step, if_pos rfl, hsome]

/-- The places of a template are what is read from the left. -/
theorem cutAtPlaces_iff {cs : List Char} {cut' : Text.Cut (List Char)} :
    CutAtPlaces cs cut' ↔ cut'.FromLeft '%' (Text.readRun? isNameChar) id cs := by
  constructor
  · rintro ⟨hfill, hname, hlongest, hleftmost⟩
    refine ⟨hfill, fun p hp => ?_, fun l hl a b heq => ?_⟩
    · refine Text.readRun?_eq_some_iff.2 ⟨rfl, (hname p hp).1, fun c hc => ?_, fun c hc => ?_⟩
      · exact isNameChar_iff.2 ((hname p hp).2 c hc)
      · exact isNameChar_eq_false_iff.2 (hlongest p hp c hc)
    · refine Text.readRun?_eq_none_iff.2 fun c hc => ?_
      obtain ⟨b, rfl⟩ := List.head?_eq_some_iff.1 hc
      exact isNameChar_eq_false_iff.2 (hleftmost l hl a c b heq)
  · rintro ⟨hfill, htoken, hliteral⟩
    have hread (p) (hp : p ∈ cut'.rest) := Text.readRun?_eq_some_iff.1 (htoken p hp)
    refine ⟨hfill, fun p hp => ?_, fun p hp c hc => ?_, fun l hl a c b heq => ?_⟩
    · exact ⟨(hread p hp).2.1, fun c hc => isNameChar_iff.1 ((hread p hp).2.2.1 c hc)⟩
    · exact isNameChar_eq_false_iff.1 ((hread p hp).2.2.2 c hc)
    · have hnone := Text.readRun?_eq_none_iff.1 (hliteral l hl a (c :: b) heq)
      exact isNameChar_eq_false_iff.1 (hnone c rfl)

/-- A template is cut in one way. -/
theorem cutAtPlaces_iff_eq_cut {cs : List Char} {cut' : Text.Cut (List Char)} :
    CutAtPlaces cs cut' ↔ cut' = cut cs := by
  rw [cutAtPlaces_iff]
  refine Text.Cut.fromLeft_iff Text.eq_append_of_readRun? fun hread hmark => ?_
  exact absurd (Text.forall_of_readRun? hread '%' hmark) (by decide)

theorem CutAtPlaces.eq_cut {cs : List Char} {cut' : Text.Cut (List Char)}
    (h : CutAtPlaces cs cut') : cut' = cut cs :=
  cutAtPlaces_iff_eq_cut.1 h

/-- That way is taken. -/
theorem cutAtPlaces_cut (cs : List Char) : CutAtPlaces cs (cut cs) :=
  cutAtPlaces_iff_eq_cut.2 rfl

/-! ## Filling the whole text -/

/-- The beginning of the line that goes on behind a text. -/
def lineStart (before : List Char) : List Char :=
  (before.reverse.takeWhile (· != '\n')).reverse

/-- The line that goes through the border of two texts. -/
def lineAt (before behind : List Char) : List Char :=
  lineStart before ++ behind.takeWhile (· != '\n')

/-- The spaces and tabs that a line begins with. -/
def leadingBlanks (line : List Char) : List Char :=
  line.takeWhile fun c => c == ' ' || c == '\t'

/-- What a place becomes on a line with some indentation: a size in decimal, the code with the
    indentation behind each of its line ends, or the place itself where the name means nothing. -/
def expansion (v : TemplateValues) (indent name : List Char) : List Char :=
  if name = "memory_size".toList then Nat.toDigits 10 v.memorySize
  else if name = "stack_size".toList then Nat.toDigits 10 v.stackSize
  else if name = "register_count".toList then Nat.toDigits 10 v.registerCount
  else if name = "code".toList then
    v.code.toList.flatMap fun c => if c = '\n' then '\n' :: indent else [c]
  else '%' :: name

/-- Places with the literal stretches behind them, each place filled, given the text of the template
    in front of them. -/
def filledFrom (v : TemplateValues) (before : List Char) :
    List (List Char × List Char) → List Char
  | [] => []
  | (name, literal) :: rest =>
    let line := lineAt before ('%' :: name ++ Text.Cut.fill ('%' :: ·) ⟨literal, rest⟩)
    expansion v (leadingBlanks line) name ++ literal ++
      filledFrom v (before ++ '%' :: name ++ literal) rest

theorem lineStart_append_newline (before : List Char) : lineStart (before ++ ['\n']) = [] := by
  simp [lineStart]

theorem lineStart_concat (before : List Char) {c : Char} (hc : c ≠ '\n') :
    lineStart (before ++ [c]) = lineStart before ++ [c] := by
  simp [lineStart, hc]

/-- A line begins with the same characters of a class whatever follows one that is not in it. -/
theorem takeWhile_append_cons {p : Char → Bool} {c : Char} (hc : p c = false) (a b : List Char) :
    (a ++ c :: b).takeWhile p = a.takeWhile p := by
  induction a with
  | nil => rw [List.nil_append, List.takeWhile_cons_of_neg (by simp [hc]), List.takeWhile_nil]
  | cons d a ih => rw [List.cons_append, List.takeWhile_cons, List.takeWhile_cons, ih]

/-- The indentation of a line with a place is found in front of the place. -/
theorem leadingBlanks_lineAt (before behind : List Char) :
    leadingBlanks (lineAt before ('%' :: behind)) = leadingBlanks (lineStart before) := by
  rw [lineAt, List.takeWhile_cons_of_pos (by decide), leadingBlanks,
    takeWhile_append_cons (by decide), leadingBlanks]

/-- A first line begins with the same characters of a class as the text, if it ends lines. -/
theorem takeWhile_of_splitOn {p : Char → Bool} (hp : p '\n' = false) {cs l : List Char}
    {ls : List (List Char)} (h : cs.splitOn '\n' = l :: ls) : l.takeWhile p = cs.takeWhile p := by
  have htext : ['\n'].intercalate (cs.splitOn '\n') = cs := List.intercalate_splitOn '\n'
  rw [h] at htext
  cases ls with
  | nil => rw [← htext, List.intercalate_singleton]
  | cons m ls =>
    rw [← htext, List.intercalate_cons_cons, List.append_assoc, List.singleton_append,
      takeWhile_append_cons hp]

theorem toList_filling (v : TemplateValues) (indent : String) (name : List Char) :
    (filling v indent name).toList = expansion v indent.toList name := by
  have hname (s : String) : String.ofList name = s ↔ name = s.toList := by
    rw [← String.toList_inj, String.toList_ofList]
  have hsize (n : Nat) : (indented indent (toString n)).toList = Nat.toDigits 10 n := by
    have hdigits : (toString n).toList = Nat.toDigits 10 n := Nat.toList_repr
    have hline : '\n' ∉ (toString n).toList := by
      rw [hdigits]
      exact fun hmem => absurd (Nat.isDigit_of_mem_toDigits (by omega) (by omega) hmem) (by decide)
    rw [indented_of_notMem indent hline, hdigits]
  simp only [filling, TemplateValues.find?, expansion, hname]
  by_cases hmemory : name = "memory_size".toList
  · simp only [if_pos hmemory, hsize]
  by_cases hstack : name = "stack_size".toList
  · simp only [if_neg hmemory, if_pos hstack, hsize]
  by_cases hregisters : name = "register_count".toList
  · simp only [if_neg hmemory, if_neg hstack, if_pos hregisters, hsize]
  by_cases hcode : name = "code".toList
  · simp only [if_neg hmemory, if_neg hstack, if_neg hregisters, if_pos hcode, toList_indented]
  · simp only [if_neg hmemory, if_neg hstack, if_neg hregisters, if_neg hcode, String.toList_ofList]

theorem intercalate_cons (c : Char) (p : List Char) (ps : List (List Char)) :
    [c].intercalate (p :: ps) = p ++ ps.flatMap (c :: ·) := by
  induction ps generalizing p with
  | nil => rw [List.intercalate_singleton, List.flatMap_nil, List.append_nil]
  | cons q ps ih =>
    rw [List.intercalate_cons_cons, ih, List.flatMap_cons, List.append_assoc, List.singleton_append,
      List.cons_append]

/-- A text is filled line by line: the rest of a line that goes on behind another text, and then the
    lines behind it. -/
def FilledByLines (v : TemplateValues) (before cs l : List Char) (ls : List (List Char)) : Prop :=
  (cut cs).lead ++ filledFrom v (before ++ (cut cs).lead) (cut cs).rest =
    (cut l).fill (fun name => (filling v (indentOf (lineStart before ++ l)) name).toList) ++
      ls.flatMap fun l => '\n' :: (renderLine v l).toList

section Lines

variable {v : TemplateValues} {before cs l : List Char} {ls : List (List Char)} {c : Char}

theorem filledByLines_nil (v : TemplateValues) (before : List Char) :
    FilledByLines v before [] [] [] :=
  rfl

/-- Behind a line feed a line begins of its own. -/
theorem FilledByLines.newline (h : FilledByLines v (before ++ ['\n']) cs l ls) :
    FilledByLines v before ('\n' :: cs) [] (l :: ls) := by
  have hcs : cut ('\n' :: cs) = ⟨'\n' :: (cut cs).lead, (cut cs).rest⟩ :=
    Text.Cut.ofChars_cons_of_ne (by decide) cs
  unfold FilledByLines at h ⊢
  rw [lineStart_append_newline, List.nil_append, ← Text.Cut.toList_fillText, List.append_assoc,
    List.singleton_append] at h
  rw [hcs]
  exact congrArg ('\n' :: ·) h

/-- A character that is no place goes from one first literal stretch to the other. -/
theorem FilledByLines.literal (hnewline : c ≠ '\n') (h : FilledByLines v (before ++ [c]) cs l ls)
    (hcs : cut (c :: cs) = ⟨c :: (cut cs).lead, (cut cs).rest⟩)
    (hline : cut (c :: l) = ⟨c :: (cut l).lead, (cut l).rest⟩) :
    FilledByLines v before (c :: cs) (c :: l) ls := by
  unfold FilledByLines at h ⊢
  rw [lineStart_concat _ hnewline, List.append_assoc, List.append_assoc, List.singleton_append,
    List.singleton_append] at h
  rw [hcs, hline]
  exact congrArg (c :: ·) h

/-- A place becomes the same on its line as in the whole text. -/
theorem FilledByLines.place (h : FilledByLines v (before ++ ['%']) cs l ls)
    (hname : l.takeWhile isNameChar = cs.takeWhile isNameChar)
    (hne : cs.takeWhile isNameChar ≠ []) : FilledByLines v before ('%' :: cs) ('%' :: l) ls := by
  obtain ⟨literal, hlead, hcs⟩ := cut_cons_of_ne_nil hne
  obtain ⟨literal', hlead', hline⟩ := cut_cons_of_ne_nil (hname.symm ▸ hne)
  rw [hname] at hlead' hline
  generalize cs.takeWhile isNameChar = name at hlead hcs hlead' hline
  unfold FilledByLines at h ⊢
  rw [lineStart_concat _ (by decide), List.append_assoc, List.append_assoc, List.singleton_append,
    List.singleton_append, hlead, Text.Cut.fill, hlead', List.append_assoc, List.append_assoc,
    List.append_assoc] at h
  have hbehind := List.append_cancel_left h
  have hindent (behind : List Char) : leadingBlanks (lineAt before ('%' :: behind)) =
      (indentOf (lineStart before ++ '%' :: l)).toList := by
    rw [leadingBlanks_lineAt, indentOf, takeWhile_append_cons (by decide), String.toList_ofList,
      leadingBlanks]
  rw [hcs, hline, Text.Cut.fill, List.flatMap_cons, toList_filling, List.append_nil,
    List.nil_append, List.nil_append, List.append_assoc, List.append_assoc, ← hbehind]
  simp only [filledFrom, List.cons_append, hindent, List.append_assoc]

end Lines

/-- Every text is filled line by line. -/
theorem filledByLines (v : TemplateValues) {cs l : List Char} {ls : List (List Char)}
    (h : cs.splitOn '\n' = l :: ls) (before : List Char) : FilledByLines v before cs l ls := by
  induction cs generalizing before l ls with
  | nil =>
    rw [List.splitOn_nil] at h
    obtain ⟨rfl, rfl⟩ := List.cons_eq_cons.1 h
    exact filledByLines_nil v before
  | cons c cs ih =>
    obtain ⟨m, ms, hm⟩ := List.exists_cons_of_ne_nil (List.splitOn_ne_nil '\n' cs)
    rw [List.splitOn_cons_eq_if_modifyHead, hm] at h
    have hrest := ih hm (before ++ [c])
    by_cases hnewline : c = '\n'
    · subst hnewline
      obtain ⟨rfl, rfl⟩ := List.cons_eq_cons.1 h
      exact hrest.newline
    · obtain ⟨rfl, rfl⟩ : c :: m = l ∧ ms = ls := by simpa [hnewline] using h
      by_cases hc : c = '%'
      · subst hc
        have hname : m.takeWhile isNameChar = cs.takeWhile isNameChar :=
          takeWhile_of_splitOn (by decide) hm
        by_cases hnil : cs.takeWhile isNameChar = []
        · exact hrest.literal hnewline (cut_cons_of_nil hnil) (cut_cons_of_nil (hname.trans hnil))
        · exact hrest.place hname hnil
      · exact hrest.literal hnewline (Text.Cut.ofChars_cons_of_ne hc cs)
          (Text.Cut.ofChars_cons_of_ne hc m)

/-- The whole of a template is filled at once. -/
theorem toList_render (t : Template) (v : TemplateValues) : (t.render v).toList =
    (cut t.text.toList).lead ++ filledFrom v (cut t.text.toList).lead (cut t.text.toList).rest := by
  obtain ⟨l, ls, hlines⟩ := List.exists_cons_of_ne_nil (List.splitOn_ne_nil '\n' t.text.toList)
  have hfilled := filledByLines v hlines []
  rw [FilledByLines, List.nil_append] at hfilled
  have hsep : "\n".toList = ['\n'] := rfl
  rw [hfilled, render, hlines, String.toList_intercalate, List.map_map, List.map_cons, hsep,
    intercalate_cons, List.flatMap_map, Function.comp_apply, renderLine, Text.Cut.toList_fillText]
  rfl

/-- **Templates are filled in one pass.** A template is cut as a whole at its leftmost longest
    places, in one way only, and the result is the first literal stretch, then each place filled,
    with the stretch behind it as it is. So what was inserted is not looked at again, and a name that
    only begins with one that means something stays as it is. -/
theorem render_eq_filled (t : Template) (v : TemplateValues) :
    ∃ places, CutAtPlaces t.text.toList places ∧
      (∀ places', CutAtPlaces t.text.toList places' → places' = places) ∧
      (t.render v).toList = places.lead ++ filledFrom v places.lead places.rest := by
  exact ⟨cut t.text.toList, cutAtPlaces_cut _, fun _ h => h.eq_cut, toList_render t v⟩

end MacroAsm.Template
