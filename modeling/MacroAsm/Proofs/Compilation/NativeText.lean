import MacroAsm.Proofs.Compilation.AnnotatedText
import MacroAsm.Proofs.Program.NativeLines
import MacroAsm.Target.Target

set_option autoImplicit false

/-! # Native text as a source

The native lines of a program say its words (`Compilation.nativeText_carries`). They hold no names, so
without jumps and calls they are a source of the same words: no variable has to get its address again,
and no label its slot. -/

namespace MacroAsm

/-! ## Linking encoded instructions again -/

namespace Program

variable {s : Scope} {parsed : List ParsedLine}

theorem isNative_of_mem_encodedIn (h : ∀ l ∈ parsed, l.IsNative) {x : Instruction × RomWord}
    (hx : x ∈ encodedIn s parsed) : x.1.Native := by
  obtain ⟨l, hl, hencoded⟩ := List.mem_filterMap.1 hx
  exact h l hl x.1 (Encoded.of_encoded? hencoded)

theorem admissible_of_mem_encodedIn (hsize : s.memorySize ≤ 65536) (h : ∀ l ∈ parsed, l.IsNative)
    {x : Instruction × RomWord} (hx : x ∈ encodedIn s parsed) : x.1.Admissible s := by
  have hmem : x.1 ∈ parsed.filterMap (ParsedLine.admitted? s) := by
    rw [← map_fst_encodedIn_eq hsize h]
    exact List.mem_map_of_mem hx
  obtain ⟨l, -, hl⟩ := List.mem_filterMap.1 hmem
  simpa using (Option.filter_eq_some_iff.1 hl).2

/-- Lines that hold nothing but instructions with their words are linked without an error. -/
theorem encodedIn_of_statements {xs : List (Instruction × RomWord)}
    (hstatements : parsed.filterMap ParsedLine.statement = xs.map fun x => .instruction x.1)
    (hresolve : ∀ x ∈ xs, x.1.resolve s.value = .ok x.2) :
    encodedIn s parsed = xs ∧ (link s parsed).2.hasError = false := by
  constructor
  · rw [encodedIn, filterMap_ofStatement rfl, hstatements, List.filterMap_map]
    have hsome : ∀ x ∈ xs, (Encoded.encoded? ∘ fun x : Instruction × RomWord =>
        Encoded.ofStatement s (some (.instruction x.1))) x = some x := by
      intro x hx
      simp only [Function.comp_apply, Encoded.ofStatement, hresolve x hx]
      rfl
    exact (List.filterMap_congr hsome).trans List.filterMap_some
  · refine List.any_eq_false.2 fun m hm => ?_
    simp only [link, Report.toList_ofList, List.filterMap_map] at hm
    obtain ⟨l, hl, hm⟩ := List.mem_filterMap.1 hm
    exfalso
    cases hs : l.statement with
    | none => simp [hs, Encoded.ofStatement, Encoded.message?] at hm
    | some statement =>
      have hmem : statement ∈ parsed.filterMap ParsedLine.statement :=
        List.mem_filterMap.2 ⟨l, hl, hs⟩
      rw [hstatements] at hmem
      obtain ⟨x, hx, rfl⟩ := List.mem_map.1 hmem
      simp [hs, Encoded.ofStatement, hresolve x hx, Encoded.message?] at hm

end Program

theorem Statement.instructionCount_map {α : Type} (f : α → Instruction) (xs : List α) :
    instructionCount (xs.map fun x => .instruction (f x)) = xs.length := by
  induction xs with
  | nil => rfl
  | cons x xs ih => rw [List.map_cons, instructionCount, ih, List.length_cons]

/-- Code that uses no variables needs no addresses. -/
theorem Layout.FirstFree.hasError_assign {layout : Layout} (h : layout.FirstFree) {code : List Line}
    (hcode : variablesOfLines code = []) (o : Options) :
    (layout.assign code o).2.hasError = false := by
  have hsame : (layout.assign code o).2.hasError = (layout.assign [] o).2.hasError :=
    (h.assign_congr h hcode o).2
  rw [hsame, h.assign_eq]
  rfl

namespace Compilation

variable {o : Options} {main : List Line} {files : List (List Line)}

/-! ## The encoded instructions of a program -/

/-- The encoded instructions of a program, with their words. -/
def encoded (o : Options) (main : List Line) (files : List (List Line)) :
    List (Instruction × RomWord) :=
  Program.encodedIn (scope o main files) (listed main files).parsed.toList

/-- The native text of a program as annotated lines: its instructions without names. -/
def nativeLines (o : Options) (main : List Line) (files : List (List Line)) : List AnnotatedLine :=
  (encoded o main files).map fun x =>
    .code (.instruction ((scope o main files).boundInstruction x.1))

/-- The source lines that the native text is read as. -/
def nativeSource (o : Options) (main : List Line) (files : List (List Line)) (path : String) :
    List Line :=
  AnnotatedLine.source path (nativeLines o main files)

theorem native_of_mem_encoded {x : Instruction × RomWord} (hx : x ∈ encoded o main files) :
    x.1.Native :=
  Program.isNative_of_mem_encodedIn (fun _ hl => Listing.isNative_of_mem hl) hx

theorem admissible_of_mem_encoded (ho : o.Valid) {x : Instruction × RomWord}
    (hx : x ∈ encoded o main files) : x.1.Admissible (scope o main files) :=
  Program.admissible_of_mem_encodedIn ho.memorySize.2 (fun _ hl => Listing.isNative_of_mem hl) hx

theorem carries_linked (ho : o.Valid) :
    List.Forall₂ NativeLine.Carries (linked o main files).1.lines (linked o main files).1.rom := by
  rw [linked, Program.lines_link, Program.rom_link, List.forall₂_map_left_iff,
    List.forall₂_map_right_iff, List.forall₂_same]
  intro x hx
  exact NativeLine.carries_native (native_of_mem_encoded hx)
    (Program.encodedBy_of_mem_encodedIn ho.memorySize.2 (fun _ hl => Listing.isNative_of_mem hl) hx)

theorem nativeText_eq : (linked o main files).1.nativeText =
    Program.unlines ((nativeLines o main files).map AnnotatedLine.written) := by
  rw [Program.nativeText, linked, Program.lines_link, nativeLines, List.map_map]
  refine congrArg Program.unlines (List.map_congr_left fun x _ => ?_)
  exact Scope.native_eq_written _ _

section NoJumps

variable (ho : o.Valid) (hjumps : ∀ w ∈ (linked o main files).1.rom, w.op.jumps = false)

include hjumps

theorem jumps_of_mem_encoded {x : Instruction × RomWord} (hx : x ∈ encoded o main files) :
    x.1.op.jumps = false := by
  have hresolve := Program.resolve_of_mem_encodedIn hx
  have hop : x.2.op = x.1.op := by
    unfold Instruction.resolve at hresolve
    split at hresolve
    · simp at hresolve
    · split at hresolve
      · simp at hresolve
      · rw [← Except.ok.inj hresolve]
  rw [← hop]
  refine hjumps x.2 ?_
  rw [linked, Program.rom_link]
  exact List.mem_map_of_mem hx

include ho

theorem sound_nativeLines : ∀ x ∈ nativeLines o main files, x.Sound := by
  intro line hline
  obtain ⟨x, hx, rfl⟩ := List.mem_map.1 hline
  have hnative := native_of_mem_encoded hx
  have hadmissible := admissible_of_mem_encoded ho hx
  have hjump := jumps_of_mem_encoded hjumps hx
  refine ⟨fun s hs => ?_, fun s hs => ?_, fun c hc => ?_, fun c hc => ?_⟩
  · obtain rfl := Option.some.inj hs
    exact hnative.boundInstruction hadmissible hjump
  · obtain rfl := Option.some.inj hs
    exact hnative.lowered_boundInstruction hadmissible hjump
  · simp [AnnotatedLine.comment?] at hc
  · simp [AnnotatedLine.comment?] at hc

/-- The native text is read as the native lines. -/
theorem ofText_nativeText (path : String) :
    Line.ofText path (linked o main files).1.nativeText = nativeSource o main files path := by
  rw [nativeText_eq, Program.ofText_unlines_written (sound_nativeLines ho hjumps)]
  rfl

theorem plain_nativeSource (path : String) : Plain (nativeSource o main files path) :=
  AnnotatedLine.plain_source (sound_nativeLines ho hjumps)

/-- What the native lines say are the instructions without names. -/
theorem statementsOf_nativeSource (path : String) :
    statementsOf (nativeSource o main files path) = (encoded o main files).map fun x =>
      .instruction ((scope o main files).boundInstruction x.1) := by
  rw [nativeSource, AnnotatedLine.statementsOf_source (sound_nativeLines ho hjumps), nativeLines,
    List.filterMap_map]
  exact congrFun List.filterMap_eq_map _

theorem fits_nativeSource (he : (linked o main files).2.hasError = false) (path : String) :
    Listing.empty.Fits (nativeSource o main files path) := by
  refine ⟨fun l hl => AnnotatedLine.parse_of_mem_source (sound_nativeLines ho hjumps) hl, ?_⟩
  have hlength := (linked_wellFormed ho he).length_rom
  rw [linked, Program.rom_link, List.length_map] at hlength
  rw [statementsOf_nativeSource ho hjumps, Statement.instructionCount_map]
  show 0 + (encoded o main files).length ≤ romCapacity
  rwa [Nat.zero_add]

theorem variablesOfLines_nativeSource (he : (linked o main files).2.hasError = false)
    (path : String) : variablesOfLines (nativeSource o main files path) = [] := by
  have hlow : ∀ l ∈ nativeSource o main files path, l.Lowered := by
    rw [← ofText_nativeText ho hjumps]
    exact fun l hl => Line.lowered_of_mem_ofText hl
  rw [Legible.variablesOfLines_eq ⟨hlow, fits_nativeSource ho hjumps he path⟩,
    statementsOf_nativeSource ho hjumps, List.flatMap_map]
  refine List.flatMap_eq_nil_iff.2 fun x hx => ?_
  exact Instruction.variables_boundInstruction (admissible_of_mem_encoded ho hx)

/-- The native lines are a source of the words that they say, and of themselves. -/
theorem linked_nativeSource (he : (linked o main files).2.hasError = false) (path : String) :
    Faultless o (nativeSource o main files path) [] ∧
      (linked o (nativeSource o main files path) []).1.rom = (linked o main files).1.rom ∧
      (linked o (nativeSource o main files path) []).1.lines = (linked o main files).1.lines := by
  have hplain := plain_nativeSource ho hjumps path
  have hcode : (expanded (nativeSource o main files path) []).1 = nativeSource o main files path := by
    rw [expanded_of_plain hplain]
  have hreads : Listing.empty.Reads (nativeSource o main files path)
      (listed (nativeSource o main files path) []) := by
    rw [listed, hcode]
    exact Listing.extend_reads (fits_nativeSource ho hjumps he path)
  have hassigned : (assigned o (nativeSource o main files path) []).2.hasError = false := by
    rw [assigned, hcode]
    exact (firstFree_of_plain hplain).hasError_assign
      (variablesOfLines_nativeSource ho hjumps he path) o
  -- each instruction without names resolves to the word that it had with them
  let again := (encoded o main files).map fun x => ((scope o main files).boundInstruction x.1, x.2)
  have hstatements : (listed (nativeSource o main files path) []).parsed.toList.filterMap
      ParsedLine.statement = again.map fun x => .instruction x.1 := by
    rw [hreads.statements, statementsOf_nativeSource ho hjumps, List.map_map]
    rfl
  have hresolve : ∀ x ∈ again,
      x.1.resolve (scope o (nativeSource o main files path) []).value = .ok x.2 := by
    intro y hy
    obtain ⟨x, hx, rfl⟩ := List.mem_map.1 hy
    have hscope : (scope o main files).Sound o (listed main files).next := scope_sound ho
    have hscope' : (scope o (nativeSource o main files path) []).Sound o
        (listed (nativeSource o main files path) []).next := scope_sound ho
    have hsame := (native_of_mem_encoded hx).resolve_boundInstruction
      (admissible_of_mem_encoded ho hx) (jumps_of_mem_encoded hjumps hx)
      (hscope'.registerCount.trans hscope.registerCount.symm)
      (hscope'.memorySize.trans hscope.memorySize.symm) hscope.address_lt
    exact hsame.trans (Program.resolve_of_mem_encodedIn hx)
  obtain ⟨hencoded, hlinked⟩ := Program.encodedIn_of_statements hstatements hresolve
  refine ⟨⟨hassigned, hreads.report, hlinked⟩, ?_, ?_⟩
  · rw [linked, Program.rom_link, hencoded, List.map_map, linked, Program.rom_link]
    rfl
  · rw [linked, Program.lines_link, hencoded, List.map_map, linked, Program.lines_link]
    refine List.map_congr_left fun x hx => ?_
    exact Instruction.native_boundInstruction (admissible_of_mem_encoded ho hx)

end NoJumps

/-! ## Compiled programs -/

/-- **The native lines of a program carry its words.** Each line can be split and its operands can be
    read; its mnemonic and their kinds select one native form, and the operation of that form and the
    numbers of the operands are the word at the same place and no other. Without jumps and calls the
    native text is compiled, wherever it stands and whatever files are around it, to a program of the
    same words and lines. -/
theorem nativeText_carries {t : FileTree} {path : String} {c : Compilation} {p : Program}
    (h : ofLines t path main o = .ok c) (hp : c.program = some p) :
    List.Forall₂ (fun line w => ∀ w', NativeLine.Carries line w' ↔ w' = w) p.lines p.rom ∧
      ((∀ w ∈ p.rom, w.op.jumps = false) → ∀ (t' : FileTree) (path' : String),
        ∃ text c' q, Target.native.render t' o p = .ok text ∧
          ofText t' path' text { o with exitLevel := .error } = .ok c' ∧ c'.program = some q ∧
          q.rom = p.rom ∧ q.lines = p.lines) := by
  obtain ⟨hv, found, -, rfl, he⟩ := program_of_ofLines h hp
  have ho := Options.validate_eq_ok_iff.1 hv
  have hlinked := (faultless_of_fullReport he).linked
  refine ⟨(carries_linked ho).imp fun line w hw w' => ?_, fun hjumps t' path' => ?_⟩
  · constructor
    · intro hw'
      exact hw.unique hw'
    · rintro rfl
      exact hw
  · -- what is compiled depends on the sizes only, and these are the same
    obtain ⟨hf, hrom, hlines⟩ := linked_nativeSource ho hjumps hlinked path'
    have hfaultless : Faultless { o with exitLevel := .error } (nativeSource o main
        (found.files.toList.map Includes.Loaded.lines) path') [] :=
      ⟨hf.assigned, hf.listed, hf.linked⟩
    obtain ⟨c', hc', hq⟩ := ofLines_eq_ok_of_plain (o := { o with exitLevel := .error }) hv
      (.inl rfl) (plain_nativeSource ho hjumps path') hfaultless t' path'
    refine ⟨_, c', _, rfl, ?_, hq, hrom, hlines⟩
    rw [ofText, ofText_nativeText ho hjumps]
    exact hc'

/-- Two variables with a value in between, and the machine stops. -/
def storeAndStop : List Line :=
  Line.ofText "main" "mov &r1, -2 // low\nmov *n, &r1\nmov &r2, 0x10\nmov *&r2, &r1\nmov *m, &r2\nhlt"

/-- They are compiled again from their native text. -/
theorem storeAndStop_carries :
    ∃ c p, ofLines ⟨[], []⟩ "main" storeAndStop .default = .ok c ∧ c.program = some p ∧
      p.lines = ["mov &r1, -2", "mov $0, &r1", "mov &r2, 16", "mov *&r2, &r1", "mov $1, &r2",
        "hlt"] ∧
      p.rom = [⟨.ldi, 1, 254⟩, ⟨.st, 0, 1⟩, ⟨.ldi, 2, 16⟩, ⟨.stp, 2, 1⟩, ⟨.st, 1, 2⟩, ⟨.hlt, 0, 0⟩] ∧
      List.Forall₂ (fun line w => ∀ w', NativeLine.Carries line w' ↔ w' = w) p.lines p.rom ∧
      ∃ text c' q, Target.native.render ⟨[], []⟩ .default p = .ok text ∧
        ofText ⟨[], []⟩ "copy" text .default = .ok c' ∧ c'.program = some q ∧
        q.rom = p.rom ∧ q.lines = p.lines := by
  have hfacts : Includes.requests "main" storeAndStop = [] ∧
      (fullReport .default storeAndStop []
        (.ofList (storeAndStop.filterMap directiveMessage?) ++ .empty)).hasError = false ∧
      (linked .default storeAndStop []).1.lines =
        ["mov &r1, -2", "mov $0, &r1", "mov &r2, 16", "mov *&r2, &r1", "mov $1, &r2", "hlt"] ∧
      (linked .default storeAndStop []).1.rom =
        [⟨.ldi, 1, 254⟩, ⟨.st, 0, 1⟩, ⟨.ldi, 2, 16⟩, ⟨.stp, 2, 1⟩, ⟨.st, 1, 2⟩, ⟨.hlt, 0, 0⟩] := by
    decide +kernel
  obtain ⟨hrequests, he, hlines, hrom⟩ := hfacts
  obtain ⟨c, h, hp⟩ :=
    ofLines_eq_ok_of_requests ⟨[], []⟩ (by decide +kernel) hrequests (.inl rfl) he
  obtain ⟨hcarries, hagain⟩ := nativeText_carries h hp
  have hjumps : ∀ w ∈ (linked .default storeAndStop []).1.rom, w.op.jumps = false := by
    rw [hrom]
    decide
  exact ⟨c, _, h, hp, hlines, hrom, hcarries, hagain hjumps ⟨[], []⟩ "copy"⟩

end Compilation

end MacroAsm
