import MacroAsm.Proofs.Compilation.ExitLevels
import MacroAsm.Proofs.Compilation.LowerCase
import MacroAsm.Proofs.Macros.Origins
import MacroAsm.Proofs.Memory.Positions
import MacroAsm.Proofs.Program.Positions

set_option autoImplicit false

/-! # Positions of a compilation

Every message of a compilation, and every note, stands at a line that was really read, under its
number and as it is written there. Macros may be reported in the files that they are read from;
whatever comes after that, and the program itself, stands in the main file, expanded code where it was
put (`Compilation.ofText_positioned`). -/

namespace MacroAsm

/-- A run that is behind has reported the beginning of what the other one has. -/
theorem Staged.Behind.isPrefix_report {α : Type} {exitLevel : Level} {s s' : Staged α}
    (h : Behind exitLevel s s') : s.report.toList <+: s'.report.toList := by
  cases h with
  | same => exact List.prefix_refl _
  | stopped _ _ hmessages => exact hmessages

namespace Compilation

variable {P : Position → Prop} {o : Options} {main : List Line} {files : List (List Line)}

/-! ## Stages -/

/-- The report of the stages is the beginning of what is reported when none is left out. -/
theorem stages_isPrefix_report (o : Options) (main : List Line) (files : List (List Line))
    (report : Report) :
    (stages o main files report).report.toList <+: (fullReport o main files report).toList := by
  have hle : o.exitLevel ≤ Level.none := by
    rw [Level.le_def]
    cases o.exitLevel <;> decide
  have hyields : (stages { o with exitLevel := .none } main files report).Yields .none
      (fullReport o main files report) (linked o main files).1 := stages_yields report
  have hbegins := (stages_behind o main files report hle).isPrefix_report
  rw [hyields.eq_of_not_reached rfl] at hbegins
  exact hbegins

/-- The warnings about directives stand at them. -/
theorem directiveMessage?_at {l : Line} (hl : P l.position) {m : Message}
    (hm : directiveMessage? l = some m) : m.At P := by
  unfold directiveMessage? at hm
  split at hm
  · simp at hm
  · split at hm
    · obtain rfl := Option.some.inj hm
      exact Message.at_about hl _ _
    · split at hm
      · simp at hm
      · obtain rfl := Option.some.inj hm
        exact Message.at_about hl _ _

/-- Where the code of a main file and what is reported of it stands, when the main file stands there:
    each line of the listing at its origin. -/
structure CodeAt (P : Position → Prop) (o : Options) (main : List Line)
    (files : List (List Line)) : Prop where
  parsed : ∀ p ∈ (listed main files).parsed.toList, ∃ origin ∈ main,
    Expansion.ComesFrom (loadMacros (files ++ [main])).1.values (CodeLines.ofLines main) origin
      p.line ∧ p.line.position = origin.position ∧ P p.line.position
  expanded : ∀ m ∈ (expanded main files).2.toList, ∃ origin ∈ main, ∃ l,
    Expansion.ComesFrom (loadMacros (files ++ [main])).1.values (CodeLines.ofLines main) origin l ∧
      m.positions = [l.position] ∧ P l.position
  found : (Layout.find main).2.At P
  assigned : (assigned o main files).2.At P
  listed : (listed main files).report.At P
  linked : (linked o main files).2.At P

theorem codeAt (o : Options) (files : List (List Line)) (hmain : ∀ l ∈ main, P l.position) :
    CodeAt P o main files := by
  obtain ⟨hlines, hmessages⟩ := (loadMacros (files ++ [main])).1.expand_origins (CodeLines.ofLines main)
  -- a line that comes from a line of code stands there, and that is a line of the main file
  have horigin {origin k : Line} (h : Expansion.ComesFrom (loadMacros (files ++ [main])).1.values
      (CodeLines.ofLines main) origin k) :
      origin ∈ main ∧ k.position = origin.position ∧ P k.position := by
    obtain ⟨hcode, hposition⟩ := h.position
    have hmem := CodeLines.mem_of_mem_ofLines hcode
    exact ⟨hmem, hposition, hposition ▸ hmain origin hmem⟩
  have hcode : ∀ l ∈ (expanded main files).1, P l.position := by
    intro l hl
    obtain ⟨origin, h⟩ := hlines l hl
    exact (horigin h).2.2
  obtain ⟨hparsed, hlisted⟩ := Listing.ofLines_at hcode
  obtain ⟨hlayout, hfound⟩ := Layout.find_at hmain
  exact {
    parsed := fun p hp => by
      obtain ⟨origin, h⟩ := hlines p.line (hparsed p hp)
      obtain ⟨hmem, hposition, hP⟩ := horigin h
      exact ⟨origin, hmem, h, hposition, hP⟩
    expanded := fun m hm => by
      obtain ⟨origin, l, h, hpositions⟩ := hmessages m hm
      obtain ⟨hmem, -, hP⟩ := horigin h
      exact ⟨origin, hmem, l, h, hpositions, hP⟩
    found := hfound
    assigned := Layout.assign_at hlayout hcode o
    listed := hlisted
    linked := Program.link_at _ fun p hp => hcode _ (hparsed p hp) }

/-- When the files that were read stand at such positions, so does all that is reported. -/
theorem fullReport_at {report : Report} (hreport : report.At P) (hmain : ∀ l ∈ main, P l.position)
    (hfiles : ∀ lines ∈ files, ∀ l ∈ lines, P l.position) :
    (fullReport o main files report).At P := by
  have hcode := codeAt o files hmain
  have hmacros : (loadMacros (files ++ [main])).2.At P := by
    refine (loadMacros_at fun lines hlines => ?_).2
    rcases List.mem_append.1 hlines with hlines | hlines
    · exact hfiles lines hlines
    · obtain rfl := List.mem_singleton.1 hlines
      exact hmain
  have hexpanded : (expanded main files).2.At P := by
    intro m hm p hp
    obtain ⟨-, -, l, -, hpositions, hl⟩ := hcode.expanded m hm
    rw [hpositions] at hp
    obtain rfl := List.mem_singleton.1 hp
    exact hl
  exact ((((hreport.append hmacros).append hexpanded).append
    (hcode.found.append hcode.assigned)).append hcode.listed).append hcode.linked

/-! ## Compilations -/

/-- A position is that of a line of the main file, or of a file that was collected, with the text that
    this file has in the tree. -/
def IsRead (t : FileTree) (path text : String) (found : Includes.Collection) (p : Position) : Prop :=
  p.IsOf path text ∨ ∃ f ∈ found.files.toList, ∃ location text',
    t.lookup f.path = .ok (location, .file (some text')) ∧ p.IsOf f.path text'

/-- Where the messages and the program of a compilation stand. -/
structure Positioned (t : FileTree) (path text : String) (o : Options)
    (found : Includes.Collection) (c : Compilation) : Prop where
  /-- What is reported stands at lines that were read. -/
  report : c.report.At (IsRead t path text found)
  /-- Behind the macros, it stands in the main file, and the code where it comes from. -/
  code : CodeAt (Position.IsOf path text) o (Line.ofText path text)
    (found.files.toList.map Includes.Loaded.lines)
  /-- A program is made of this code. -/
  program : ∀ p, c.program = some p → p.parsed =
    (listed (Line.ofText path text) (found.files.toList.map Includes.Loaded.lines)).parsed.toList

section Reading

variable {t : FileTree} {path text : String} {found : Includes.Collection}
  (hfound : Includes.collect t path (Line.ofText path text) = .ok found)

include hfound

/-- The lines of the files that were collected are read from the tree. -/
theorem isRead_of_mem_files {f : Includes.Loaded} (hf : f ∈ found.files.toList) {l : Line}
    (hl : l ∈ f.lines) : IsRead t path text found l.position := by
  obtain ⟨files, messages, hvisits, hfiles, -⟩ := Includes.visits_of_serve hfound
  obtain rfl : found.files.toList = files := by simpa using hfiles
  obtain ⟨-, -, hload⟩ := hvisits.loaded f hf
  obtain ⟨location, text', hlookup, hlines⟩ := Line.exists_text_of_load hload
  rw [hlines] at hl
  exact .inr ⟨f, hf, location, text', hlookup, Line.isOf_of_mem_ofText hl⟩

/-- All that is reported when no stage is left out stands at lines that were read. -/
theorem fullReport_isRead (o : Options) :
    (fullReport o (Line.ofText path text) (found.files.toList.map Includes.Loaded.lines)
      (.ofList ((Line.ofText path text).filterMap directiveMessage?) ++ found.report)).At
        (IsRead t path text found) := by
  have hmain : ∀ l ∈ Line.ofText path text, IsRead t path text found l.position :=
    fun l hl => .inl (Line.isOf_of_mem_ofText hl)
  have hdirectives : ∀ m ∈ (Line.ofText path text).filterMap directiveMessage?,
      m.At (IsRead t path text found) := by
    intro m hm
    obtain ⟨l, hl, hm⟩ := List.mem_filterMap.1 hm
    exact directiveMessage?_at (hmain l hl) hm
  have hincludes : found.report.At (IsRead t path text found) := by
    refine (Includes.at_of_collect hfound).imp fun p hp => ?_
    rcases hp with ⟨l, hl, rfl⟩ | ⟨f, hf, l, hl, rfl⟩
    · exact hmain l hl
    · exact isRead_of_mem_files hfound hf hl
  refine fullReport_at ((Report.at_ofList hdirectives).append hincludes) hmain fun lines hlines => ?_
  obtain ⟨f, hf, rfl⟩ := List.mem_map.1 hlines
  exact fun l hl => isRead_of_mem_files hfound hf hl

end Reading

/-- **Messages point at real lines.** Whatever text is compiled, in whatever tree of files and with
    whatever options, every position of the report, be it of a message or of a note, is that of a line
    of this text or of a file that was collected: its file, its number, which counts from one and does
    not pass the last line, and the line as it is written. What is reported of the expansion of
    macros, of variables, of statements and of operands, and every entry of the program, stands in the
    main file: at the line of code itself, or, for a line that expansions have put there, at the line
    whose place it has taken, the use or the closer. -/
theorem ofText_positioned {t : FileTree} {path text : String} {o : Options} {c : Compilation}
    (h : ofText t path text o = .ok c) :
    ∃ found, Includes.collect t path (Line.ofText path text) = .ok found ∧
      Positioned t path text o found c := by
  have hmain : ∀ l ∈ Line.ofText path text, l.position.IsOf path text :=
    fun l => Line.isOf_of_mem_ofText
  have hcompiled := h
  unfold ofText ofLines at hcompiled
  split at hcompiled
  · simp at hcompiled
  · split at hcompiled
    · simp at hcompiled
    · next found hfound =>
      obtain rfl := Except.ok.inj hcompiled
      refine ⟨found, hfound, ?_, codeAt o _ hmain, fun p hp => ?_⟩
      · have hbegins := stages_isPrefix_report o (Line.ofText path text)
          (found.files.toList.map Includes.Loaded.lines)
          (.ofList ((Line.ofText path text).filterMap directiveMessage?) ++ found.report)
        intro m hm
        exact fullReport_isRead hfound o m (hbegins.subset hm)
      · obtain ⟨-, found', hfound', rfl, -⟩ := program_of_ofLines h hp
        obtain rfl : found = found' := Except.ok.inj (hfound.symm.trans hfound')
        exact Program.parsed_link _ _

/-- A macro whose use leaves the use of another, which leaves a jump to a label that is not there. -/
def lostInMacros : String :=
  "#macro far\njmp nowhere\n#endmacro\n#macro off\nfar\n#endmacro\n off // here"

/-- The jump is reported where the outer macro is used, and so stands the entry of the listing. -/
theorem lostInMacros_positioned :
    ∃ c, ofText ⟨[], []⟩ "main" lostInMacros { Options.default with exitLevel := .none } = .ok c ∧
      c.report.At (Position.IsOf "main" lostInMacros) ∧
      c.report.toList.filterMap (fun m => m.position.map Position.line) = [7] ∧
      (listed (Line.ofText "main" lostInMacros) []).parsed.toList.map
        (fun p => p.line.position) = [⟨"main", 7, " off // here"⟩] := by
  have hrequests : Includes.requests "main" (Line.ofText "main" lostInMacros) = [] := by
    decide +kernel
  have hcompiled := ofLines_eq_ofStaged { Options.default with exitLevel := .none }
    (Line.ofText "main" lostInMacros) ⟨[], []⟩ rfl hrequests
  obtain ⟨found, hfound, hpositioned⟩ := ofText_positioned hcompiled
  rw [Includes.collect_eq_ok _ hrequests] at hfound
  obtain rfl := Except.ok.inj hfound
  refine ⟨_, hcompiled, ?_, by decide +kernel, by decide +kernel⟩
  refine hpositioned.report.imp fun p hp => ?_
  rcases hp with hp | ⟨f, hf, -⟩
  · exact hp
  · simp at hf

end Compilation

end MacroAsm
