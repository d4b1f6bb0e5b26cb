import MacroAsm.Proofs.Text.Cuts
import MacroAsm.Template.Builtin

set_option autoImplicit false

/-! # Lines of rendered templates

A template is filled line by line. Where no value but the code has several lines, the lines of the
result are those of the template, and in the place of the one with the code those of the code, each
behind what that line begins with. -/

namespace MacroAsm

namespace Text

/-- The lines of joined texts are the lines of each. -/
theorem splitOn_intercalate_flatMap {c : Char} {ps : List (List Char)} (h : ps ≠ []) :
    ([c].intercalate ps).splitOn c = ps.flatMap (List.splitOn c) := by
  obtain ⟨p, ps, rfl⟩ := List.exists_cons_of_ne_nil h
  induction ps generalizing p with
  | nil => simp
  | cons q ps ih =>
    rw [List.intercalate_cons_cons, List.flatMap_cons, ← ih q (List.cons_ne_nil _ _),
      List.append_assoc, List.singleton_append, List.splitOn_append_cons_self]

theorem splitOn_of_notMem {c : Char} {cs : List Char} (h : c ∉ cs) : cs.splitOn c = [cs] := by
  have hsplit : ([c].intercalate [cs]).splitOn c = [cs] :=
    List.splitOn_intercalate c (by simpa using h) (by simp)
  rwa [List.intercalate_singleton] at hsplit

/-- Each line with a line end is a line, and what is behind the last end is one. -/
theorem splitOn_flatMap {ls : List (List Char)} (h : ∀ l ∈ ls, '\n' ∉ l) :
    (ls.flatMap (· ++ ['\n'])).splitOn '\n' = ls ++ [[]] := by
  induction ls with
  | nil => simp
  | cons l ls ih =>
    have hl : l.splitOn '\n' = [l] := splitOn_of_notMem (h l List.mem_cons_self)
    rw [List.flatMap_cons, List.append_assoc, List.singleton_append, List.splitOn_append_cons_self,
      hl, ih fun m hm => h m (List.mem_cons_of_mem l hm), List.singleton_append, List.cons_append]

namespace Cut

variable {α : Type} {mark : Char} {token? : List Char → Option (α × List Char)}

/-- What is put in front of a text leaves its tokens as they are. -/
theorem rest_suffix (a cs : List Char) :
    (ofChars mark token? cs).rest <:+ (ofChars mark token? (a ++ cs)).rest := by
  induction a with
  | nil => exact List.suffix_rfl
  | cons c a ih =>
    unfold ofChars at ih ⊢
    rw [List.cons_append, List.foldr_cons, step]
    split
    · split
      · exact ih.trans (List.suffix_cons _ _)
      · exact ih
    · exact ih

end Cut

end Text

namespace Template

variable {v : TemplateValues}

/-! ## Rendered lines -/

/-- The names that mean something. -/
def valueNames : List String :=
  ["memory_size", "stack_size", "register_count", "code"]

theorem find?_eq_none {name : String} (h : name ∉ valueNames) : v.find? name = none := by
  simp only [valueNames, List.mem_cons, List.not_mem_nil, or_false, not_or] at h
  obtain ⟨hmemory, hstack, hregisters, hcode⟩ := h
  simp [TemplateValues.find?, hmemory, hstack, hregisters, hcode]

/-- A text that ends with a text with a place for the code has one. -/
theorem hasCode_append {a b : String} (h : hasCode b = true) : hasCode (a ++ b) = true := by
  unfold hasCode cut Text.Cut.tokens at h ⊢
  obtain ⟨name, hname, hcode⟩ := List.any_eq_true.1 h
  rw [String.toList_append]
  have hmem := ((Text.Cut.rest_suffix a.toList b.toList).map Prod.fst).subset hname
  exact List.any_eq_true.2 ⟨name, hmem, hcode⟩

/-- Whether all places of a line stay as they are. -/
def isFixed (line : List Char) : Bool :=
  (cut line).tokens.all fun name => String.ofList name ∉ valueNames

theorem renderLine_of_isFixed {line : List Char} (h : isFixed line = true) :
    (renderLine v line).toList = line := by
  have htokens : ∀ name ∈ (cut line).tokens, (filling v (indentOf line) name).toList = '%' :: name := by
    intro name hname
    have hnone := List.all_eq_true.1 h name hname
    simp [filling, find?_eq_none (v := v) (of_decide_eq_true hnone)]
  rw [renderLine, Text.Cut.toList_fillText, Text.Cut.fill_congr htokens]
  refine Text.Cut.fill_ofChars (fun hread => ?_) line
  rw [Text.eq_append_of_readRun? hread, List.cons_append]

/-- The lines of a rendered template. -/
theorem splitOn_render {name : String} {lines : List String} (h : ∀ l ∈ lines, '\n' ∉ l.toList) :
    (render ⟨name, String.join (lines.map (· ++ "\n"))⟩ v).toList.splitOn '\n' =
      lines.flatMap (fun l => (renderLine v l.toList).toList.splitOn '\n') ++ [[]] := by
  have htext : (String.join (lines.map (· ++ "\n"))).toList =
      (lines.map String.toList).flatMap (· ++ ['\n']) := by
    simp [String.toList_join, List.flatMap_map]
  have hlines : (String.join (lines.map (· ++ "\n"))).toList.splitOn '\n' =
      lines.map String.toList ++ [[]] := by
    rw [htext]
    refine Text.splitOn_flatMap fun l hl => ?_
    obtain ⟨s, hs, rfl⟩ := List.mem_map.1 hl
    exact h s hs
  have hjoined (ps : List (List Char)) : (String.intercalate "\n" (ps.map (renderLine v))).toList =
      ['\n'].intercalate (ps.map fun p => (renderLine v p).toList) := by
    simp [Function.comp_def]
  have hempty : renderLine v [] = "" := rfl
  rw [render, hlines, hjoined, Text.splitOn_intercalate_flatMap (by simp)]
  simp [List.flatMap_map, hempty]

/-- A value of one line is not indented. -/
theorem indented_of_notMem (indent : String) {value : String} (h : '\n' ∉ value.toList) :
    indented indent value = value := by
  rw [indented, Text.splitOn_of_notMem h]
  simp

/-- A code of some lines, indented. -/
theorem splitOn_indented {indent : String} {lines : List String} (h : lines ≠ [])
    (hlines : ∀ l ∈ lines, '\n' ∉ l.toList) (hindent : '\n' ∉ indent.toList) :
    (indent.toList ++ (indented indent (String.intercalate "\n" lines)).toList).splitOn '\n' =
      lines.map fun l => indent.toList ++ l.toList := by
  obtain ⟨l, ls, rfl⟩ := List.exists_cons_of_ne_nil h
  have hsplit : (String.intercalate "\n" (l :: ls)).toList.splitOn '\n' =
      (l :: ls).map String.toList := by
    rw [String.toList_intercalate]
    refine List.splitOn_intercalate '\n' (fun m hm => ?_) (by simp)
    obtain ⟨s, hs, rfl⟩ := List.mem_map.1 hm
    exact hlines s hs
  have hinter (ms : List String) (m : String) :
      indent.toList ++ (String.intercalate ("\n" ++ indent) (m :: ms)).toList =
        ['\n'].intercalate ((m :: ms).map fun m => indent.toList ++ m.toList) := by
    induction ms generalizing m with
    | nil => simp
    | cons n ms ih =>
      rw [String.intercalate_cons_cons, List.map_cons, List.map_cons, List.intercalate_cons_cons,
        ← List.map_cons (f := fun m : String => indent.toList ++ m.toList), ← ih n]
      simp
  have hmap : ((l :: ls).map String.toList).map String.ofList = l :: ls := by
    simp [Function.comp_def]
  rw [indented, hsplit, hmap, hinter]
  refine List.splitOn_intercalate '\n' (fun m hm => ?_) (by simp)
  obtain ⟨s, hs, rfl⟩ := List.mem_map.1 hm
  simp [hindent, hlines s hs]

end Template

end MacroAsm
