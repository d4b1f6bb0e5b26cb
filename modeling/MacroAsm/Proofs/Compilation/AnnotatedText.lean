import MacroAsm.Proofs.Compilation.PlainLines
import MacroAsm.Proofs.Compilation.SameStatements
import MacroAsm.Proofs.Program.AnnotatedLines

set_option autoImplicit false

/-! # Annotated text as a source

The annotated text of a program is a source of the same program
(`Compilation.agrees_of_annotatedText`). It is made of the statements that are left when all macros
are expanded, so it is read without directives, and every line of it is kept: those of the listing,
and the program memory behind it as comments. -/

namespace MacroAsm

/-- Annotated lines hold no directive. -/
theorem AnnotatedLine.plain_source {file : String} {xs : List AnnotatedLine}
    (h : ∀ x ∈ xs, x.Sound) : Plain (source file xs) := by
  intro l hl
  obtain ⟨x, hx, index, rfl⟩ := exists_of_mem_source hl
  exact (h x hx).directive?_ofRaw file index

namespace Compilation

variable {o : Options} {t : FileTree} {path path' text : String} {found : Includes.Collection}

/-- The lines of a program without errors are those of its code, and in these are only comments that
    stand in the file. -/
theorem sound_annotated (hfound : Includes.collect t path (Line.ofText path' text) = .ok found)
    (h : Faultless o (Line.ofText path' text) (found.files.toList.map Includes.Loaded.lines)) :
    ∀ x ∈ (linked o (Line.ofText path' text)
      (found.files.toList.map Includes.Loaded.lines)).1.annotated, x.Sound := by
  have hreads := reads_listed h.fits
  have hlow := lowered_expanded hfound
  have hstatement : ∀ l ∈ (listed (Line.ofText path' text)
      (found.files.toList.map Includes.Loaded.lines)).parsed.toList, ∀ s, l.statement = some s →
      s.Readable ∧ Text.Lowered s.written.toList := by
    intro l hl s hs
    obtain ⟨hmem, hline⟩ := hreads.of_mem hl
    have hparse := h.fits.readable l.line hmem
    rw [← hline, hs] at hparse
    exact ⟨Statement.readable_of_parse hparse, Statement.lowered_written (hlow _ hmem) hparse⟩
  refine Program.sound_annotated (fun l hl s hs => (hstatement l hl s hs).1)
    (fun l hl s hs => (hstatement l hl s hs).2) fun l hl c hc => ?_
  rcases MacroTable.comment_of_mem_expand (hreads.of_mem hl).1 with hnone | hmem
  · rw [hnone] at hc
    simp at hc
  · exact Line.isComment_of_mem_ofText (CodeLines.mem_of_mem_ofLines hmem) hc

theorem annotatedLines_linked (main : List Line) (files : List (List Line)) :
    (linked o main files).1.annotatedLines =
      (linked o main files).1.annotated.map AnnotatedLine.written :=
  Program.annotatedLines_link _ _

/-- The annotated text holds the statements of the code. -/
theorem statements_annotated {main : List Line} {files : List (List Line)}
    (h : Faultless o main files) :
    (linked o main files).1.annotated.filterMap AnnotatedLine.statement? =
      statementsOf (expanded main files).1 :=
  Program.statements_annotated.trans (reads_listed h.fits).statements

/-- A layout that is not asked for gives every variable the first free address. -/
theorem firstFree_of_plain {lines : List Line} (h : Plain lines) :
    (Layout.find lines).1.FirstFree := by
  rw [Layout.find_of_plain h]
  exact ⟨rfl, rfl⟩

/-- A file without directives is compiled if its code is without errors. -/
theorem ofLines_eq_ok_of_plain {lines : List Line} (hv : o.validate = .ok ())
    (hexit : o.exitLevel = .error ∨ o.exitLevel = .none) (h : Plain lines)
    (hf : Faultless o lines []) (t : FileTree) (path : String) :
    ∃ c, ofLines t path lines o = .ok c ∧ c.program = some (linked o lines []).1 := by
  have hreport : (fullReport o lines []
      (.ofList (lines.filterMap directiveMessage?) ++ .empty)).hasError = false := by
    simp only [fullReport, Report.hasError_append, directiveMessages_of_plain h, List.nil_append,
      loadMacros_of_plain h, expanded_of_plain h, Layout.find_of_plain h, hf.assigned, hf.listed,
      hf.linked]
    rfl
  exact ofLines_eq_ok_of_requests t hv (Includes.requests_of_plain h path) hexit hreport

/-- Annotated lines with the statements of some code become the program of that code, and its listing
    is these lines. -/
theorem agrees_of_source {main : List Line} {files : List (List Line)} (hf : Faultless o main files)
    (hlayout : (Layout.find main).1.FirstFree) (hlow : ∀ l ∈ (expanded main files).1, l.Lowered)
    {xs : List AnnotatedLine} (hxs : ∀ x ∈ xs, x.Sound)
    (hstatements : xs.filterMap AnnotatedLine.statement? = statementsOf (expanded main files).1)
    {lines : List Line} (hlines : lines = AnnotatedLine.source path xs)
    (hlow' : ∀ l ∈ lines, l.Lowered) :
    Faultless o lines [] ∧ (linked o main files).1.Agrees (linked o lines []).1 ∧
      (linked o lines []).1.listing = xs.map AnnotatedLine.written := by
  subst hlines
  have hplain : Plain (AnnotatedLine.source path xs) := AnnotatedLine.plain_source hxs
  have hcode : (expanded (AnnotatedLine.source path xs) []).1 = AnnotatedLine.source path xs := by
    rw [expanded_of_plain hplain]
  have hsame : statementsOf (AnnotatedLine.source path xs) =
      statementsOf (expanded main files).1 := by
    rw [AnnotatedLine.statementsOf_source hxs, hstatements]
  have hfits : Listing.empty.Fits (AnnotatedLine.source path xs) := by
    refine ⟨fun l hl => AnnotatedLine.parse_of_mem_source hxs hl, ?_⟩
    rw [hsame]
    exact (hf.legible hlow).fits.count_le
  have hlegible : Legible (expanded (AnnotatedLine.source path xs) []).1 := by
    rw [hcode]
    exact ⟨hlow', hfits⟩
  obtain ⟨hf', hagrees⟩ := agrees_of_statements hf hlayout (firstFree_of_plain hplain) hlow hlegible
    (by rw [hcode, hsame])
  refine ⟨hf', hagrees, ?_⟩
  have hreads : Listing.empty.Reads (AnnotatedLine.source path xs)
      (listed (AnnotatedLine.source path xs) []) := by
    have h := Listing.extend_reads hfits
    rw [listed, hcode]
    exact h
  have hagain := hreads.filterMap_eq fun l s => AnnotatedLine.of? s l.comment
  rw [linked, Program.listing_link, hagain, AnnotatedLine.annotated_source hxs]

/-- The annotated text of a program is a source of the same program, wherever it stands and whatever
    files are around it, and the listing of that program is the text itself. -/
theorem agrees_of_annotatedText {c : Compilation} {p : Program} (h : ofText t path text o = .ok c)
    (hp : c.program = some p) (hexit : o.exitLevel = .error ∨ o.exitLevel = .none)
    (hlayout : (Layout.find (Line.ofText path text)).1.FirstFree) (t' : FileTree)
    (path' : String) :
    ∃ c' q, ofText t' path' p.annotatedText o = .ok c' ∧ c'.program = some q ∧ p.Agrees q ∧
      q.listing = (Text.lines p.annotatedText.toList).map String.ofList := by
  obtain ⟨hv, found, hfound, hlinked, he⟩ := program_of_ofLines h hp
  have hf := faultless_of_fullReport he
  have hsound : ∀ x ∈ p.annotated, x.Sound := by
    rw [hlinked]
    exact sound_annotated hfound hf
  have hwritten : p.annotatedLines = p.annotated.map AnnotatedLine.written := by
    rw [hlinked]
    exact annotatedLines_linked _ _
  have hstatements : p.annotated.filterMap AnnotatedLine.statement? = statementsOf
      (expanded (Line.ofText path text) (found.files.toList.map Includes.Loaded.lines)).1 := by
    rw [hlinked]
    exact statements_annotated hf
  -- the text is read as the annotated lines that it was made of
  have htext := Program.ofText_annotatedText hwritten hsound path'
  have hplain : Plain (Line.ofText path' p.annotatedText) := by
    rw [htext]
    exact AnnotatedLine.plain_source hsound
  obtain ⟨hf', hagrees, hlisting⟩ := agrees_of_source hf hlayout (lowered_expanded hfound) hsound
    hstatements htext fun l hl => Line.lowered_of_mem_ofText hl
  obtain ⟨c', hc', hq⟩ := ofLines_eq_ok_of_plain hv hexit hplain hf' t' path'
  rw [← hlinked] at hagrees
  refine ⟨c', _, hc', hq, hagrees, ?_⟩
  rw [Program.lines_annotatedText hwritten hsound, hwritten, List.map_map, List.map_map]
  refine hlisting.trans (List.map_congr_left fun x _ => ?_)
  exact (String.ofList_toList).symm

/-- A loop that uses a macro and a variable, with a label, comments and no layout. -/
def clearing : String :=
  "#macro clear %register // in one step\n xor %1, %1\n#endmacro\nStart: // of the loop\n clear &r1
 mov *n, &r1 // n\n// and again\n jmp start"

/-- It is compiled again from its annotated text. -/
theorem clearing_agrees :
    ∃ c p, ofText ⟨[], []⟩ "main" clearing .default = .ok c ∧ c.program = some p ∧
      p.listing = ["start: // of the loop", "xor &r1, &r1", "mov *n, &r1 // n", "// and again",
        "jmp start"] ∧
      ∃ c' q, ofText ⟨[], []⟩ "copy" p.annotatedText .default = .ok c' ∧ c'.program = some q ∧
        p.Agrees q ∧ q.listing = (Text.lines p.annotatedText.toList).map String.ofList := by
  have hfacts : Includes.requests "main" (Line.ofText "main" clearing) = [] ∧
      (fullReport .default (Line.ofText "main" clearing) []
        (.ofList ((Line.ofText "main" clearing).filterMap directiveMessage?) ++ .empty)).hasError =
        false ∧
      (Layout.find (Line.ofText "main" clearing)).1.kind = .staticAuto ∧
      (Layout.find (Line.ofText "main" clearing)).1.balance = .incremental ∧
      (linked .default (Line.ofText "main" clearing) []).1.listing =
        ["start: // of the loop", "xor &r1, &r1", "mov *n, &r1 // n", "// and again",
          "jmp start"] := by
    decide +kernel
  obtain ⟨hrequests, he, hkind, hbalance, hlisting⟩ := hfacts
  obtain ⟨c, h, hp⟩ :=
    ofLines_eq_ok_of_requests ⟨[], []⟩ (by decide +kernel) hrequests (.inl rfl) he
  exact ⟨c, _, h, hp, hlisting,
    agrees_of_annotatedText h hp (.inl rfl) ⟨hkind, hbalance⟩ ⟨[], []⟩ "copy"⟩

end Compilation

end MacroAsm
