import Mathlib.Data.List.Basic
import MacroAsm.Proofs.Program.Encoding
import MacroAsm.Proofs.Program.Reading
import MacroAsm.Proofs.Program.Statements
import MacroAsm.Proofs.Source.Cutting
import MacroAsm.Target.Native

set_option autoImplicit false

/-! # Annotated lines

A line of annotated text holds a statement, a comment, or both. The annotated text of a program is a
list of such lines (`Program.annotated`), and each is read again as what it holds
(`AnnotatedLine.Sound.ofRaw_written`). -/

namespace MacroAsm

/-- What a line of annotated text holds. -/
inductive AnnotatedLine where
  | code (s : Statement)
  | commented (s : Statement) (comment : String)
  | comment (comment : String)
  deriving DecidableEq

namespace AnnotatedLine

/-- The line of a statement and a comment, unless there is neither. -/
def of? (s? : Option Statement) (comment? : Option String) : Option AnnotatedLine :=
  match s?, comment?.filter fun c => !c.isEmpty with
  | some s, none => some (.code s)
  | some s, some c => some (.commented s c)
  | none, some c => some (.comment c)
  | none, none => none

/-- The statement on a line. -/
def statement? : AnnotatedLine → Option Statement
  | .code s => some s
  | .commented s _ => some s
  | .comment _ => none

/-- The comment on a line. -/
def comment? : AnnotatedLine → Option String
  | .code _ => none
  | .commented _ c => some c
  | .comment c => some c

/-- A line as it is written. -/
def written : AnnotatedLine → String
  | .code s => s.written
  | .commented s c => s!"{s.written} // {c}"
  | .comment c => s!"// {c}"

/-- Annotated text shows the statement of a line, whether it was encoded or not. -/
theorem code?_ofStatement (scope : Scope) (s? : Option Statement) :
    (Encoded.ofStatement scope s?).code? = s?.map Statement.written := by
  cases s? with
  | none => rfl
  | some s =>
    cases s with
    | label name => rfl
    | instruction i =>
      simp only [Encoded.ofStatement]
      cases i.resolve scope.value with
      | ok w => rfl
      | error e => rfl

theorem annotated?_ofStatement (scope : Scope) (s? : Option Statement)
    (comment? : Option String) :
    (Encoded.ofStatement scope s?).annotated? comment? = (of? s? comment?).map written := by
  unfold Encoded.annotated? of?
  rw [code?_ofStatement]
  cases s? with
  | none => cases comment?.filter fun c => !c.isEmpty <;> rfl
  | some s => cases comment?.filter fun c => !c.isEmpty <;> rfl

/-- A line that holds nothing has no statement either. -/
theorem bind_statement?_of? (s? : Option Statement) (comment? : Option String) :
    (of? s? comment?).bind statement? = s? := by
  unfold of?
  cases s? with
  | none => cases comment?.filter fun c => !c.isEmpty <;> rfl
  | some s => cases comment?.filter fun c => !c.isEmpty <;> rfl

/-! ## Lines that are read again -/

/-- What is needed to read a line again: a statement in lower case that can be read, and a comment
    that says something. -/
structure Sound (x : AnnotatedLine) : Prop where
  readable : ∀ s, x.statement? = some s → s.Readable
  lowered : ∀ s, x.statement? = some s → Text.Lowered s.written.toList
  isComment : ∀ c, x.comment? = some c → Line.IsComment c
  isEmpty : ∀ c, x.comment? = some c → c.isEmpty = false

/-- A line made of a statement and a comment is read again if these are. -/
theorem sound_of? {s? : Option Statement} {comment? : Option String}
    (hreadable : ∀ s, s? = some s → s.Readable)
    (hlowered : ∀ s, s? = some s → Text.Lowered s.written.toList)
    (hcomment : ∀ c, comment? = some c → Line.IsComment c) {x : AnnotatedLine}
    (hx : of? s? comment? = some x) : x.Sound := by
  -- only empty comments are left out
  have hkept : x.statement? = s? ∧ x.comment? = comment?.filter fun c => !c.isEmpty := by
    unfold of? at hx
    split at hx
    · next heq =>
      obtain rfl := Option.some.inj hx
      exact ⟨rfl, heq.symm⟩
    · next heq =>
      obtain rfl := Option.some.inj hx
      exact ⟨rfl, heq.symm⟩
    · next heq =>
      obtain rfl := Option.some.inj hx
      exact ⟨rfl, heq.symm⟩
    · simp at hx
  obtain ⟨hs, hc⟩ := hkept
  refine ⟨fun s h => hreadable s (hs ▸ h), fun s h => hlowered s (hs ▸ h), fun c h => ?_,
    fun c h => ?_⟩
  · rw [hc, Option.filter_eq_some_iff] at h
    exact hcomment c h.1
  · rw [hc, Option.filter_eq_some_iff] at h
    simpa using h.2

variable {x : AnnotatedLine}

/-- A sound line is the line of what it holds. -/
theorem Sound.of?_eq (h : x.Sound) : of? x.statement? x.comment? = some x := by
  cases x with
  | code s => rfl
  | commented s c =>
    have hkept : (some c).filter (fun c => !c.isEmpty) = some c := by
      simp [Option.filter, h.isEmpty c rfl]
    simp only [of?, statement?, comment?, hkept]
  | comment c =>
    have hkept : (some c).filter (fun c => !c.isEmpty) = some c := by
      simp [Option.filter, h.isEmpty c rfl]
    simp only [of?, statement?, comment?, hkept]

theorem isCode_written {s : Statement} (hread : s.Readable)
    (hlow : Text.Lowered s.written.toList) : Line.IsCode s.written.toList := by
  have hchar := fun c hc => Statement.isCodeChar_of_mem_written (c := c) hread hc
  refine ⟨Statement.trimmed_written hread, ?_, fun hslash => ?_⟩
  · exact Text.lower_eq_self (fun c hc => toNat_lt_of_isCodeChar (hchar c hc)) hlow
  · exact (not_special_of_isCodeChar (hchar '/' hslash)).1 rfl

/-- A sound line is read as the statement and the comment that it holds. -/
theorem Sound.ofRaw_written (h : x.Sound) (file : String) (index : Nat) :
    (Line.ofRaw file index x.written).code = (x.statement?.map Statement.written).getD "" ∧
      (Line.ofRaw file index x.written).comment = x.comment? := by
  have hblank : Text.Blank [' '] := by
    intro c hc
    obtain rfl := List.mem_singleton.1 hc
    rfl
  cases x with
  | code s =>
    have hcode := isCode_written (h.readable s rfl) (h.lowered s rfl)
    obtain ⟨hc, hn⟩ := Line.ofRaw_code file index hcode rfl
    refine ⟨?_, hn⟩
    rw [written, hc, String.ofList_toList]
    rfl
  | commented s c =>
    have hcode := isCode_written (h.readable s rfl) (h.lowered s rfl)
    have hraw : (written (.commented s c)).toList =
        s.written.toList ++ [' '] ++ '/' :: '/' :: ([' '] ++ c.toList) := by
      simp [written, toString]
    obtain ⟨hc, hn⟩ := Line.ofRaw_commented file index hcode (h.isComment c rfl).trimmed hblank
      (by decide) hblank hraw
    rw [hc, hn, String.ofList_toList, String.ofList_toList]
    exact ⟨rfl, rfl⟩
  | comment c =>
    have hcode : Line.IsCode [] := ⟨by constructor <;> simp, rfl, List.not_mem_nil⟩
    have hraw : (written (.comment c)).toList = [] ++ [] ++ '/' :: '/' :: ([' '] ++ c.toList) := by
      simp [written, toString]
    obtain ⟨hc, hn⟩ := Line.ofRaw_commented file index hcode (h.isComment c rfl).trimmed
      (fun _ h => absurd h List.not_mem_nil) List.not_mem_nil hblank hraw
    rw [hc, hn, String.ofList_toList]
    exact ⟨rfl, rfl⟩

/-- The code of a sound line is the statement on it. -/
theorem Sound.parse_ofRaw (h : x.Sound) (file : String) (index : Nat) :
    Statement.parse (Line.ofRaw file index x.written).code = .ok x.statement? := by
  rw [(h.ofRaw_written file index).1]
  cases hs : x.statement? with
  | none => rfl
  | some s => exact Statement.parse_written (h.readable s hs)

/-- A sound line is no directive. -/
theorem Sound.directive?_ofRaw (h : x.Sound) (file : String) (index : Nat) :
    (Line.ofRaw file index x.written).directive? = none := by
  refine Line.directive?_eq_none ?_
  rw [(h.ofRaw_written file index).1]
  cases hs : x.statement? with
  | none => exact List.not_mem_nil
  | some s =>
    intro hmark
    have hchar := Statement.isCodeChar_of_mem_written (h.readable s hs) hmark
    exact (not_special_of_isCodeChar hchar).2.1 rfl

/-- A line that ends with a comment is read as one line. -/
theorem oneLine_of_comment {cs : List Char} {c : String} (hcs : '\n' ∉ cs)
    (hc : Line.IsComment c) (hne : c.isEmpty = false) : Text.OneLine (cs ++ c.toList) := by
  have hnil : c.toList ≠ [] := by
    intro hnil
    rw [String.toList_eq_nil_iff.1 hnil] at hne
    exact absurd hne (by decide)
  refine ⟨fun h => ?_, fun d hd => ?_⟩
  · rcases List.mem_append.1 h with h | h
    · exact hcs h
    · exact hc.feed h
  · have hlast : d ∈ c.toList.getLast? := by
      rw [List.getLast?_append, List.getLast?_eq_some_getLast hnil, Option.some_or] at hd
      rwa [List.getLast?_eq_some_getLast hnil]
    rintro rfl
    -- a carriage return is a blank, and no comment ends with one
    exact absurd (hc.trimmed.last '\r' hlast) (by decide)

/-- A sound line is read as one line. -/
theorem Sound.oneLine (h : x.Sound) : Text.OneLine x.written.toList := by
  have hfeed : ∀ s, x.statement? = some s → '\n' ∉ s.written.toList := by
    intro s hs hmem
    have hchar := Statement.isCodeChar_of_mem_written (h.readable s hs) hmem
    exact (not_special_of_isCodeChar hchar).2.2.1 rfl
  cases x with
  | code s =>
    refine ⟨hfeed s rfl, fun c hc => ?_⟩
    have hchar := Statement.isCodeChar_of_mem_written (h.readable s rfl) (List.mem_of_getLast? hc)
    exact (not_special_of_isCodeChar hchar).2.2.2
  | commented s c =>
    have hlist : (written (.commented s c)).toList =
        (s.written.toList ++ " // ".toList) ++ c.toList := by
      simp [written, toString]
    rw [hlist]
    refine oneLine_of_comment (fun hmem => ?_) (h.isComment c rfl) (h.isEmpty c rfl)
    rcases List.mem_append.1 hmem with hmem | hmem
    · exact hfeed s rfl hmem
    · exact absurd hmem (by decide)
  | comment c =>
    have hlist : (written (.comment c)).toList = "// ".toList ++ c.toList := by
      simp [written, toString]
    rw [hlist]
    exact oneLine_of_comment (by decide) (h.isComment c rfl) (h.isEmpty c rfl)

/-- A comment on a line of its own. -/
theorem sound_comment {c : String} (hc : Line.IsComment c) (hne : c.isEmpty = false) :
    (comment c).Sound := by
  refine ⟨by simp [statement?], by simp [statement?], fun d hd => ?_, fun d hd => ?_⟩
  · obtain rfl := Option.some.inj hd
    exact hc
  · obtain rfl := Option.some.inj hd
    exact hne

/-! ## Lines of a file -/

/-- Annotated lines as the source lines of a file. -/
def source (file : String) (xs : List AnnotatedLine) : List Line :=
  xs.zipIdx.map fun x => Line.ofRaw file x.2 x.1.written

variable {file : String} {xs : List AnnotatedLine}

theorem exists_of_mem_source {l : Line} (hl : l ∈ source file xs) :
    ∃ x ∈ xs, ∃ index, l = Line.ofRaw file index x.written := by
  obtain ⟨x, hx, rfl⟩ := List.mem_map.1 hl
  exact ⟨x.1, List.fst_mem_of_mem_zipIdx hx, x.2, rfl⟩

/-- What is read off the source lines is read off the annotated lines. -/
theorem filterMap_source {β : Type} {f : Line → Option β} {g : AnnotatedLine → Option β}
    (h : ∀ x ∈ xs, ∀ index, f (Line.ofRaw file index x.written) = g x) :
    (source file xs).filterMap f = xs.filterMap g := by
  have hfst : xs.filterMap g = xs.zipIdx.filterMap fun x => g x.1 := by
    conv_lhs => rw [← List.zipIdx_map_fst 0 xs, List.filterMap_map]
    rfl
  rw [source, List.filterMap_map, hfst]
  exact List.filterMap_congr fun x hx => h x.1 (List.fst_mem_of_mem_zipIdx hx) x.2

theorem Sound.statement?_ofRaw (h : x.Sound) (file : String) (index : Nat) :
    (Line.ofRaw file index x.written).statement? = x.statement? :=
  Listing.statement?_of_parse (h.parse_ofRaw file index)

/-- The statements are read again. -/
theorem statementsOf_source (h : ∀ x ∈ xs, x.Sound) :
    statementsOf (source file xs) = xs.filterMap statement? :=
  filterMap_source fun x hx index => (h x hx).statement?_ofRaw file index

theorem parse_of_mem_source (h : ∀ x ∈ xs, x.Sound) {l : Line} (hl : l ∈ source file xs) :
    Statement.parse l.code = .ok l.statement? := by
  obtain ⟨x, hx, index, rfl⟩ := exists_of_mem_source hl
  rw [(h x hx).statement?_ofRaw, (h x hx).parse_ofRaw]

/-- The lines are annotated again as they were. -/
theorem annotated_source (h : ∀ x ∈ xs, x.Sound) :
    (source file xs).filterMap (fun l => of? l.statement? l.comment) = xs := by
  have hsame : ∀ x ∈ xs, ∀ index, of? (Line.ofRaw file index x.written).statement?
      (Line.ofRaw file index x.written).comment = some x := by
    intro x hx index
    rw [(h x hx).statement?_ofRaw, ((h x hx).ofRaw_written file index).2, (h x hx).of?_eq]
  rw [filterMap_source (f := fun l => of? l.statement? l.comment) (g := some) hsame]
  exact List.filterMap_some

end AnnotatedLine

/-! ## The annotated text of a program -/

open AnnotatedLine (Sound)

/-- A written entry of the program memory is a comment that says something. -/
theorem RomWord.isComment_written (w : RomWord) :
    Line.IsComment w.written ∧ w.written.isEmpty = false := by
  have hlist : w.written.toList = '(' :: (Nat.toDigits 10 w.op.code ++ [',', ' '] ++
      Nat.toDigits 10 w.a.toNat ++ [',', ' '] ++ Nat.toDigits 10 w.b.toNat) ++ [')'] := by
    simp [written, toString, Nat.toList_repr]
  have hdigits (n : Nat) : '\n' ∉ Nat.toDigits 10 n := fun h =>
    absurd (Nat.isDigit_of_mem_toDigits (by decide) (by decide) h) (by decide)
  refine ⟨⟨⟨fun c hc => ?_, fun c hc => ?_⟩, ?_⟩, ?_⟩
  · rw [hlist] at hc
    obtain rfl := Option.some.inj hc
    rfl
  · rw [hlist, List.getLast?_concat] at hc
    obtain rfl := Option.some.inj hc
    rfl
  · rw [hlist]
    simp [hdigits]
  · rw [Bool.eq_false_iff]
    intro h
    rw [String.isEmpty_iff.1 h] at hlist
    simp at hlist

/-- A statement on its own is a comment that says something, too. -/
theorem Statement.isComment_written {s : Statement} (h : s.Readable) :
    Line.IsComment s.written ∧ s.written.isEmpty = false := by
  refine ⟨⟨trimmed_written h, fun hmem => ?_⟩, ?_⟩
  · exact (not_special_of_isCodeChar (isCodeChar_of_mem_written h hmem)).2.2.1 rfl
  · rw [Bool.eq_false_iff]
    intro hempty
    refine s.written_ne_nil ?_
    rw [String.isEmpty_iff.1 hempty]
    rfl

namespace Program

/-- What the lines of the annotated text hold. -/
def annotated (p : Program) : List AnnotatedLine :=
  p.parsed.filterMap (fun l => AnnotatedLine.of? l.statement l.line.comment) ++
    [.comment "ROM Instructions"] ++ p.rom.map (fun w => .comment w.written) ++
    [.comment "ROM Instructions LBL"] ++ p.romWithLabels.map fun e => .comment e.written

theorem listing_link (scope : Scope) (parsed : List ParsedLine) : (link scope parsed).1.listing =
    (parsed.filterMap fun l => AnnotatedLine.of? l.statement l.line.comment).map
      AnnotatedLine.written := by
  simp only [link, List.filterMap_map, List.map_filterMap, Function.comp_def,
    AnnotatedLine.annotated?_ofStatement]

theorem annotatedLines_link (scope : Scope) (parsed : List ParsedLine) :
    (link scope parsed).1.annotatedLines =
      (link scope parsed).1.annotated.map AnnotatedLine.written := by
  have hcomment {α : Type} (f : α → String) (xs : List α) :
      (xs.map fun x => AnnotatedLine.comment (f x)).map AnnotatedLine.written =
        xs.map fun x => s!"// {f x}" := by
    rw [List.map_map]
    rfl
  simp only [annotatedLines, annotated, listing_link, List.map_append, hcomment]
  rfl

/-- Lines that are written one after the other are read again. -/
theorem lines_unlines {lines : List String} (h : ∀ l ∈ lines, Text.OneLine l.toList) :
    Text.lines (unlines lines).toList = lines.map String.toList := by
  have hlist : (unlines lines).toList =
      (lines.map String.toList).flatMap fun l => l ++ ['\n'] := by
    rw [unlines, String.toList_join, List.flatMap_map, List.flatMap_map]
    simp only [String.toList_append]
    rfl
  rw [hlist]
  refine Text.lines_flatMap fun l hl => ?_
  obtain ⟨s, hs, rfl⟩ := List.mem_map.1 hl
  exact h s hs

section Written

variable {xs : List AnnotatedLine} (h : ∀ x ∈ xs, x.Sound)

include h

/-- Sound lines that are written one after the other are cut again. -/
theorem lines_unlines_written : Text.lines (unlines (xs.map AnnotatedLine.written)).toList =
    (xs.map AnnotatedLine.written).map String.toList := by
  refine lines_unlines fun l hl => ?_
  obtain ⟨x, hx, rfl⟩ := List.mem_map.1 hl
  exact (h x hx).oneLine

theorem ofText_unlines_written (file : String) :
    Line.ofText file (unlines (xs.map AnnotatedLine.written)) = AnnotatedLine.source file xs := by
  unfold Line.ofText AnnotatedLine.source
  rw [lines_unlines_written h, List.map_map, List.zipIdx_map, List.map_map]
  refine List.map_congr_left fun x _ => ?_
  simp [String.ofList_toList]

end Written

section AnnotatedText

variable {p : Program} (hwritten : p.annotatedLines = p.annotated.map AnnotatedLine.written)
  (hsound : ∀ x ∈ p.annotated, x.Sound)

include hwritten hsound

/-- The annotated text is cut into the lines that it was made of. -/
theorem lines_annotatedText :
    Text.lines p.annotatedText.toList = p.annotatedLines.map String.toList := by
  rw [annotatedText, hwritten]
  exact lines_unlines_written hsound

theorem ofText_annotatedText (file : String) :
    Line.ofText file p.annotatedText = AnnotatedLine.source file p.annotated := by
  rw [annotatedText, hwritten]
  exact ofText_unlines_written hsound file

end AnnotatedText

section Annotated

variable {scope : Scope} {parsed : List ParsedLine}

/-- The lines behind the listing hold no statements. -/
theorem statements_annotated : (link scope parsed).1.annotated.filterMap AnnotatedLine.statement? =
    parsed.filterMap ParsedLine.statement := by
  have hnone {α : Type} (f : α → String) (xs : List α) :
      (xs.map fun x => AnnotatedLine.comment (f x)).filterMap AnnotatedLine.statement? = [] := by
    rw [List.filterMap_map]
    exact List.filterMap_eq_nil_iff.2 fun x _ => rfl
  have hlisting : (parsed.filterMap fun l => AnnotatedLine.of? l.statement l.line.comment).filterMap
      AnnotatedLine.statement? = parsed.filterMap ParsedLine.statement := by
    rw [List.filterMap_filterMap]
    exact List.filterMap_congr fun l _ => AnnotatedLine.bind_statement?_of? _ _
  simp only [annotated, List.filterMap_append, hnone, List.append_nil]
  exact (List.append_nil _).trans ((List.append_nil _).trans hlisting)

/-- The annotated text is read again if the lines of the program are. -/
theorem sound_annotated (hreadable : ∀ l ∈ parsed, ∀ s, l.statement = some s → s.Readable)
    (hlowered : ∀ l ∈ parsed, ∀ s, l.statement = some s → Text.Lowered s.written.toList)
    (hcomment : ∀ l ∈ parsed, ∀ c, l.line.comment = some c → Line.IsComment c) :
    ∀ x ∈ (link scope parsed).1.annotated, x.Sound := by
  intro x hx
  simp only [annotated, List.mem_append, List.mem_map, List.mem_singleton] at hx
  rcases hx with (((hx | rfl) | ⟨w, -, rfl⟩) | rfl) | ⟨e, he, rfl⟩
  · obtain ⟨l, hl, hx⟩ := List.mem_filterMap.1 hx
    exact AnnotatedLine.sound_of? (hreadable l hl) (hlowered l hl) (hcomment l hl) hx
  · exact AnnotatedLine.sound_comment ⟨by decide, by decide⟩ (by decide)
  · exact AnnotatedLine.sound_comment w.isComment_written.1 w.isComment_written.2
  · exact AnnotatedLine.sound_comment ⟨by decide, by decide⟩ (by decide)
  · cases e with
    | word w => exact AnnotatedLine.sound_comment w.isComment_written.1 w.isComment_written.2
    | label name =>
      obtain ⟨l, hl, hs⟩ := exists_of_label_mem he
      obtain ⟨hc, hne⟩ := Statement.isComment_written (hreadable l hl _ hs)
      exact AnnotatedLine.sound_comment hc hne

end Annotated

end Program

end MacroAsm
