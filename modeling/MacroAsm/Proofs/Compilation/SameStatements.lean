import MacroAsm.Proofs.Compilation.LowerCase
import MacroAsm.Proofs.Memory.UsedNames
import MacroAsm.Proofs.Memory.Variables
import MacroAsm.Proofs.Program.Encoding
import MacroAsm.Proofs.Program.Reading

set_option autoImplicit false

/-! # Programs of the same statements

When variables take the first free addresses, a program is determined by the statements that its code
says, in their order. Comments, files, line numbers and macros leave no trace in it
(`Compilation.agrees_of_statements`). -/

namespace MacroAsm

/-- Two programs have equal instructions, labels and variables; only the lines that they were made of
    may differ. -/
structure Program.Agrees (p q : Program) : Prop where
  rom : q.rom = p.rom
  romWithLabels : q.romWithLabels = p.romWithLabels
  lines : q.lines = p.lines
  source : q.source = p.source
  addresses : q.addresses = p.addresses
  label : ∀ name, q.labels.slot? name = p.labels.slot? name

/-- Code that says something: it is in lower case and can be read. -/
structure Legible (code : List Line) : Prop where
  lowered : ∀ l ∈ code, l.Lowered
  fits : Listing.empty.Fits code

/-- Code that can be read uses the variables of its statements. -/
theorem variablesOfLines_eq_flatMap {code : List Line} (hlow : ∀ l ∈ code, l.Lowered)
    (hread : ∀ l ∈ code, ∃ s?, Statement.parse l.code = .ok s?) :
    variablesOfLines code = (statementsOf code).flatMap Statement.variables := by
  unfold variablesOfLines statementsOf
  induction code with
  | nil => rfl
  | cons l code ih =>
    have htail := ih (fun k hk => hlow k (List.mem_cons_of_mem l hk))
      fun k hk => hread k (List.mem_cons_of_mem l hk)
    obtain ⟨s?, hparse⟩ := hread l List.mem_cons_self
    have hs : l.statement? = s? := by simp only [Line.statement?, hparse]
    rw [List.flatMap_cons, htail, variablesIn_of_parse (hlow l List.mem_cons_self) hparse]
    cases s? with
    | none => rw [List.filterMap_cons_none hs]; rfl
    | some s => rw [List.filterMap_cons_some hs, List.flatMap_cons]; rfl

/-- The variables in use are those of the statements. -/
theorem Legible.variablesOfLines_eq {code : List Line} (h : Legible code) :
    variablesOfLines code = (statementsOf code).flatMap Statement.variables :=
  variablesOfLines_eq_flatMap h.lowered fun l hl => ⟨_, h.fits.readable l hl⟩

/-- The labels are those of the statements. -/
theorem Listing.Reads.label_congr {code code' : List Line} {s s' : Listing}
    (h : empty.Reads code s) (h' : empty.Reads code' s')
    (hcode : statementsOf code' = statementsOf code) (name : String) :
    s'.labels.slot? name = s.labels.slot? name := by
  rw [h.label, h'.label, hcode]

/-- What a listing without errors holds are the statements of the code. -/
theorem Listing.Reads.statements {code : List Line} {s : Listing} (h : empty.Reads code s) :
    s.parsed.toList.filterMap ParsedLine.statement = statementsOf code :=
  h.filterMap_eq fun _ s => s

namespace Compilation

/-- The stages behind the expansion of macros find no error. -/
structure Faultless (o : Options) (main : List Line) (files : List (List Line)) : Prop where
  assigned : (assigned o main files).2.hasError = false
  listed : (listed main files).report.hasError = false
  linked : (linked o main files).2.hasError = false

variable {o : Options} {main main' : List Line} {files files' : List (List Line)}

theorem faultless_of_fullReport {report : Report}
    (h : (fullReport o main files report).hasError = false) : Faultless o main files := by
  simp only [fullReport, Report.hasError_append, Bool.or_eq_false_iff] at h
  obtain ⟨⟨⟨-, -, hassigned⟩, hlisted⟩, hlinked⟩ := h
  exact ⟨hassigned, hlisted, hlinked⟩

theorem Faultless.fits (h : Faultless o main files) : Listing.empty.Fits (expanded main files).1 :=
  (Listing.ofLines_reads h.listed).1

/-- Code that can be read is read into the listing. -/
theorem reads_listed (h : Listing.empty.Fits (expanded main files).1) :
    Listing.empty.Reads (expanded main files).1 (listed main files) :=
  Listing.extend_reads h

/-- Code that is read without an error is legible. -/
theorem Faultless.legible (h : Faultless o main files)
    (hlow : ∀ l ∈ (expanded main files).1, l.Lowered) : Legible (expanded main files).1 :=
  ⟨hlow, h.fits⟩

/-- Code with the same statements becomes the same program, without an error. -/
theorem agrees_of_statements (h : Faultless o main files)
    (hlayout : (Layout.find main).1.FirstFree) (hlayout' : (Layout.find main').1.FirstFree)
    (hlow : ∀ l ∈ (expanded main files).1, l.Lowered) (hcode' : Legible (expanded main' files').1)
    (hstatements : statementsOf (expanded main' files').1 = statementsOf (expanded main files).1) :
    Faultless o main' files' ∧ (linked o main files).1.Agrees (linked o main' files').1 := by
  have hcode := h.legible hlow
  -- equal variables get equal addresses, and equal statements give labels equal slots
  have hvariables : variablesOfLines (expanded main' files').1 =
      variablesOfLines (expanded main files).1 := by
    rw [hcode.variablesOfLines_eq, hcode'.variablesOfLines_eq, hstatements]
  obtain ⟨haddress, hassigned⟩ := hlayout.assign_congr hlayout' hvariables o
  have hreads := reads_listed hcode.fits
  have hreads' := reads_listed hcode'.fits
  have hlabel := hreads.label_congr hreads' hstatements
  have hparsed : (listed main' files').parsed.toList.filterMap ParsedLine.statement =
      (listed main files).parsed.toList.filterMap ParsedLine.statement := by
    rw [hreads.statements, hreads'.statements, hstatements]
  have hscope : (scope o main' files').value = (scope o main files).value ∧
      (scope o main' files').written = (scope o main files).written :=
    Scope.value_congr rfl rfl haddress hlabel
  obtain ⟨hrom, hromWithLabels, hlines, hsource⟩ := Program.link_congr hscope.1 hscope.2 hparsed
  refine ⟨⟨hassigned.trans h.assigned, hreads'.report, ?_⟩, ?_⟩
  · exact Program.hasError_link_congr hscope.1 hparsed h.linked
  · exact ⟨hrom, hromWithLabels, hlines, hsource, haddress, hlabel⟩

end Compilation

end MacroAsm
