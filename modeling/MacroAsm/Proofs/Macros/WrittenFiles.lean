import Mathlib.Data.List.Induction
import MacroAsm.Proofs.Compilation.Stages
import MacroAsm.Proofs.Macros.WrittenMacros

set_option autoImplicit false

/-! # Files of macros that are written

Reading undoes writing. Macros are spread over files, with lines between them that are no
directives. When the files are read one after the other, the names of the macros are entered in the
order of their first definitions, the last definition of a name counts, and each definition of a
name that has one is reported, but no error is (`Compilation.loadMacros_written`).

All of this is about macros for whose openers there is a matcher. A macro whose opener is nothing
but ten thousand commas can be written, but it is refused (`hasError_manyCommas`). -/

namespace MacroAsm

/-! ## Writing -/

/-- A part of a file: a macro, or a line that belongs to none. -/
inductive MacroPart where
  | definition (d : MacroSource)
  | other (raw : String)

namespace MacroPart

/-- The lines of a part. -/
def raws : MacroPart → List String
  | definition d => d.raws
  | other raw => [raw]

/-- The macro that a part is. -/
def definition? : MacroPart → Option MacroSource
  | definition d => some d
  | other _ => none

/-- A part is a macro with parts that it can have, or a line that is no directive. -/
def WellFormed : MacroPart → Prop
  | definition d => d.WellFormed
  | other raw => '\n' ∉ raw.toList ∧ (Line.ofRaw "" 0 raw).directive? = none

instance (part : MacroPart) : Decidable part.WellFormed :=
  match part with
  | definition d => inferInstanceAs (Decidable d.WellFormed)
  | other raw => inferInstanceAs
      (Decidable ('\n' ∉ raw.toList ∧ (Line.ofRaw "" 0 raw).directive? = none))

end MacroPart

/-- A file of macros. -/
structure MacroFile where
  path : String
  parts : List MacroPart

namespace MacroFile

/-- The lines of a file, as they are read. -/
def lines (f : MacroFile) : List Line :=
  Line.ofText f.path ("\n".intercalate (f.parts.flatMap MacroPart.raws))

/-- The macros of a file. -/
def definitions (f : MacroFile) : List MacroSource :=
  f.parts.filterMap MacroPart.definition?

/-- All parts of a file are well formed. -/
def WellFormed (f : MacroFile) : Prop :=
  ∀ part ∈ f.parts, part.WellFormed

instance (f : MacroFile) : Decidable f.WellFormed :=
  List.decidableBAll _ f.parts

end MacroFile

/-- The names that stand behind the same name, given those in front. -/
def repeated (front : List String) : List String → List String
  | [] => []
  | name :: names =>
    (if name ∈ front then [name] else []) ++ repeated (front ++ [name]) names

theorem repeated_append (front names names' : List String) :
    repeated front (names ++ names') =
      repeated front names ++ repeated (front ++ names) names' := by
  induction names generalizing front with
  | nil => simp [repeated]
  | cons name names ih => simp [repeated, ih]

/-! ## Many macros -/

/-- A table holds the macros that were written: each name once, in the order of the first
    definitions, with the macro of the last one. -/
structure MacroTable.Holds (table : MacroTable) (ds : List MacroSource) : Prop where
  names : table.names = (ds.map MacroSource.name).eraseDups
  last : ∀ name d, (ds.filter fun e => e.name = name).getLast? = some d →
    ∃ m m', table.find? name = some m ∧ d.asMacro = .ok m' ∧ m.same m' = true

theorem MacroTable.holds_empty : MacroTable.Holds .empty [] :=
  ⟨rfl, fun _ _ h => by cases h⟩

theorem MacroTable.Holds.mem_names {table : MacroTable} {ds : List MacroSource}
    (h : table.Holds ds) {name : String} :
    name ∈ table.names ↔ name ∈ ds.map MacroSource.name := by
  rw [h.names, List.mem_eraseDups]

/-- A macro that is entered is the last one of its name. -/
theorem MacroTable.Holds.insert {table : MacroTable} {ds : List MacroSource} {d : MacroSource}
    (h : table.Holds ds) {m m' : Macro} (hm' : d.asMacro = .ok m') (hsame : m.same m' = true) :
    MacroTable.Holds (Registry.insert table d.name m) (ds ++ [d]) := by
  refine ⟨?_, fun name e he => ?_⟩
  · rw [List.map_append, List.map_singleton, eraseDups_concat, ← h.names]
    by_cases hname : d.name ∈ ds.map MacroSource.name
    · rw [if_pos hname, Registry.names_insert_of_mem (h.mem_names.2 hname)]
    · rw [if_neg hname, Registry.names_insert_of_not_mem (mt h.mem_names.1 hname)]
  · rw [Registry.find?_insert]
    by_cases hname : d.name = name
    · rw [List.filter_append, List.filter_singleton] at he
      simp only [hname, decide_true, cond_true, List.getLast?_concat, Option.some.injEq] at he
      rw [if_pos hname.symm]
      exact ⟨m, m', rfl, he ▸ hm', hsame⟩
    · rw [List.filter_append, List.filter_singleton] at he
      simp only [hname, decide_false, cond_false, List.append_nil] at he
      rw [if_neg (Ne.symm hname)]
      exact h.last name e he

/-- Severities and texts of the messages of a report. -/
def Report.texts (report : Report) : List (Severity × String) :=
  report.toList.map fun m => (m.severity, m.text)

/-- The warnings about the macros whose names have one already. -/
def redefinitions (front ds : List MacroSource) : List (Severity × String) :=
  (repeated (front.map MacroSource.name) (ds.map MacroSource.name)).map fun name =>
    (.warning, s!"Re-defined macro: `{name}`")

theorem redefinitions_append (front ds ds' : List MacroSource) :
    redefinitions front (ds ++ ds') =
      redefinitions front ds ++ redefinitions (front ++ ds) ds' := by
  simp only [redefinitions, List.map_append, repeated_append]

theorem redefinitions_concat (front ds : List MacroSource) (d : MacroSource) :
    redefinitions front (ds ++ [d]) = redefinitions front ds ++
      if d.name ∈ (front ++ ds).map MacroSource.name then
        [(.warning, s!"Re-defined macro: `{d.name}`")] else [] := by
  rw [redefinitions_append, redefinitions, redefinitions, List.map_singleton, repeated, repeated,
    List.append_nil]
  split
  · rfl
  · rfl

namespace MacroReader

/-- A reader has read some macros of a file behind the macros of other files. -/
structure Holds (front ds : List MacroSource) (r : MacroReader) : Prop where
  current : r.current = none
  table : r.table.Holds (front ++ ds)
  texts : r.report.texts = redefinitions front ds

variable {r : MacroReader} {front ds : List MacroSource}

/-- One more macro is entered, and reported if its name has one. -/
theorem Holds.enter (h : r.Holds front ds) {d : MacroSource} (hd : d.WellFormed) (hfits : d.Fits)
    (start : Line) : (r.enter d start).Holds front (ds ++ [d]) := by
  obtain ⟨m, hm, hname⟩ := hd.exists_asMacro hfits
  have henter : r.enter d start = r.define start { m with position := some start.position } := by
    unfold MacroReader.enter
    rw [hm]
  have hmade : Macro.name { m with position := some start.position } = d.name := hname
  have hsame : Macro.same { m with position := some start.position } m = true := by
    rw [Macro.same, beq_iff_eq]
  have hdefined : (r.table.find? d.name).isSome = true ↔
      d.name ∈ (front ++ ds).map MacroSource.name :=
    Registry.mem_names.symm.trans h.table.mem_names
  have htable := h.table.insert hm hsame
  rw [List.append_assoc] at htable
  rw [henter, define, hmade]
  cases hfind : r.table.find? d.name with
  | none =>
    have hnew := mt hdefined.2 (by simp [hfind])
    refine ⟨h.current, htable, ?_⟩
    rw [redefinitions_concat, if_neg hnew, List.append_nil]
    exact h.texts
  | some previous =>
    have hold := hdefined.1 (by simp [hfind])
    refine ⟨h.current, htable, ?_⟩
    rw [redefinitions_concat, if_pos hold, ← h.texts]
    simp [Report.texts, addMessage, redefinedMessage, Message.about, Message.withNote]

/-- The parts of a file are read one after the other. -/
theorem Holds.foldl_step (h : r.Holds front ds) {parts : List MacroPart}
    (hparts : ∀ part ∈ parts, part.WellFormed)
    (hfits : ∀ d ∈ parts.filterMap MacroPart.definition?, d.Fits) {lines : List Line}
    (hlines : lines.map Line.code = (parts.flatMap MacroPart.raws).map Line.codeOf) :
    (lines.foldl step r).Holds front (ds ++ parts.filterMap MacroPart.definition?) := by
  induction parts generalizing r ds lines with
  | nil =>
    obtain rfl := List.map_eq_nil_iff.1 hlines
    rwa [List.filterMap_nil, List.append_nil]
  | cons part parts ih =>
    obtain ⟨hpart, hrest⟩ := List.forall_mem_cons.1 hparts
    rw [List.flatMap_cons, List.map_append] at hlines
    obtain ⟨first, lines, rfl, hfirst, hbehind⟩ := List.map_eq_append_iff.1 hlines
    rw [List.foldl_append]
    cases part with
    | definition d =>
      have hdefinitions : (MacroPart.definition d :: parts).filterMap MacroPart.definition? =
          d :: parts.filterMap MacroPart.definition? := rfl
      rw [hdefinitions] at hfits ⊢
      obtain ⟨hfit, hfits⟩ := List.forall_mem_cons.1 hfits
      obtain ⟨start, hfold⟩ := foldl_raws hpart h.current hfirst
      rw [hfold, List.append_cons]
      exact ih (h.enter hpart hfit start) hrest hfits hbehind
    | other raw =>
      obtain ⟨l, rfl, hl⟩ := List.map_eq_singleton_iff.1 hfirst
      have hcode : l.directive? = none := (Line.directive?_congr hl).trans hpart.2
      rw [List.foldl_cons, List.foldl_nil, step_of_other h.current
        (Line.isDirective_of_none hcode _) (Line.isDirective_of_none hcode _)]
      exact ih h hrest hfits hbehind

/-- A line without code changes nothing. -/
theorem step_of_code_eq_empty {l : Line} (hl : l.code = "") : r.step l = r := by
  have hplain (name : String) : l.isDirective name = false :=
    Line.isDirective_of_none (Line.directive?_eq_none (by rw [hl]; decide)) name
  cases hcurrent : r.current with
  | none => exact step_of_other hcurrent (hplain _) (hplain _)
  | some m => exact step_of_empty hcurrent (hplain _) (hplain _) (by rw [hl]; decide)

end MacroReader

/-! ## Files -/

theorem MacroFile.WellFormed.feed_notMem {f : MacroFile} (hf : f.WellFormed) :
    ∀ raw ∈ f.parts.flatMap MacroPart.raws, '\n' ∉ raw.toList := by
  intro raw hraw
  obtain ⟨part, hpart, hraw⟩ := List.mem_flatMap.1 hraw
  have hwell := hf part hpart
  cases part with
  | definition d => exact MacroSource.WellFormed.feed_notMem hwell raw hraw
  | other other =>
    obtain rfl := List.mem_singleton.1 hraw
    exact hwell.1

/-- A file is read as its parts are written. -/
theorem MacroFile.WellFormed.exists_load_eq {f : MacroFile} (hf : f.WellFormed)
    (table : MacroTable) :
    ∃ lines : List Line,
      lines.map Line.code = (f.parts.flatMap MacroPart.raws).map Line.codeOf ∧
        table.load f.lines = table.load lines := by
  obtain ⟨fillers, hfillers, hcodes⟩ := Line.codes_ofText f.path hf.feed_notMem
  refine ⟨f.lines ++ fillers.map (Line.withCode ⟨f.path, 0, "", "", none⟩), ?_, ?_⟩
  · rw [List.map_append, List.map_map, ← hcodes]
    exact congrArg _ (List.map_id fillers)
  · have hfold (r : MacroReader) :
        (fillers.map (Line.withCode ⟨f.path, 0, "", "", none⟩)).foldl MacroReader.step r = r := by
      refine foldl_eq_self fun l hl => ?_
      obtain ⟨code, hcode, rfl⟩ := List.mem_map.1 hl
      exact MacroReader.step_of_code_eq_empty (hfillers code hcode)
    rw [MacroTable.load, MacroTable.load, List.foldl_append, hfold]

/-- One more file is read. -/
theorem MacroTable.Holds.load {table : MacroTable} {front : List MacroSource}
    (h : table.Holds front) {f : MacroFile} (hf : f.WellFormed)
    (hfits : ∀ d ∈ f.definitions, d.Fits) :
    (table.load f.lines).1.Holds (front ++ f.definitions) ∧
      (table.load f.lines).2.texts = redefinitions front f.definitions := by
  obtain ⟨lines, hlines, hload⟩ := hf.exists_load_eq table
  have hstart : MacroReader.Holds front [] ⟨table, none, .empty⟩ :=
    ⟨rfl, by rwa [List.append_nil], rfl⟩
  have hread := hstart.foldl_step hf hfits hlines
  rw [hload, MacroTable.load, MacroReader.close, hread.current]
  exact ⟨hread.table, hread.texts⟩

namespace Compilation

/-- Files are read one after the other. -/
theorem holds_loadMacros {files : List MacroFile} (hfiles : ∀ f ∈ files, f.WellFormed)
    (hfits : ∀ f ∈ files, ∀ d ∈ f.definitions, d.Fits) :
    (loadMacros (files.map MacroFile.lines)).1.Holds (files.flatMap MacroFile.definitions) ∧
      (loadMacros (files.map MacroFile.lines)).2.texts =
        redefinitions [] (files.flatMap MacroFile.definitions) := by
  induction files using List.reverseRecOn with
  | nil => exact ⟨MacroTable.holds_empty, rfl⟩
  | append_singleton files f ih =>
    obtain ⟨hfront, hf⟩ := List.forall_mem_append.1 hfiles
    obtain ⟨hfitsFront, hfit⟩ := List.forall_mem_append.1 hfits
    obtain ⟨htable, htexts⟩ := ih hfront hfitsFront
    obtain ⟨hloaded, hreport⟩ :=
      htable.load (hf f List.mem_cons_self) (hfit f List.mem_cons_self)
    rw [List.map_append, List.map_singleton, loadMacros_concat, List.flatMap_append,
      List.flatMap_singleton]
    refine ⟨hloaded, ?_⟩
    rw [redefinitions_append, List.nil_append, ← htexts, ← hreport, Report.texts,
      Report.toList_append, List.map_append, Report.texts, Report.texts]

/-- **Reading undoes writing.** Take any files of macros with well-formed parts, with lines in
    between that are no directives, where the matcher of each opener is within the limit. Reading
    one file after the other reports no error. The names of the macros that are read are the openers
    in normal spacing, in the order in which they were first defined, each with the macro that was
    written last under this name. There is exactly one warning for each macro whose name has one
    already. -/
theorem loadMacros_written {files : List MacroFile} (hfiles : ∀ f ∈ files, f.WellFormed)
    (hfits : ∀ f ∈ files, ∀ d ∈ f.definitions, d.Fits) :
    let ds := files.flatMap MacroFile.definitions
    let loaded := loadMacros (files.map MacroFile.lines)
    loaded.2.hasError = false ∧
    loaded.1.names = (ds.map MacroSource.name).eraseDups ∧
    (∀ name d, (ds.filter fun e => e.name = name).getLast? = some d →
      ∃ m m', loaded.1.find? name = some m ∧ d.asMacro = .ok m' ∧ m.same m' = true) ∧
    loaded.2.toList.map (fun m => (m.severity, m.text)) =
      (repeated [] (ds.map MacroSource.name)).map fun name =>
        (.warning, s!"Re-defined macro: `{name}`") := by
  intro ds loaded
  obtain ⟨htable, htexts⟩ := holds_loadMacros hfiles hfits
  refine ⟨?_, htable.names, htable.last, htexts⟩
  rw [Report.hasError, List.any_eq_false]
  intro m hm
  have hmem : (m.severity, m.text) ∈ loaded.2.texts := List.mem_map_of_mem hm
  rw [htexts] at hmem
  obtain ⟨name, -, hname⟩ := List.mem_map.1 hmem
  have hwarning : m.severity = .warning := (congrArg Prod.fst hname).symm
  rw [hwarning]
  decide

/-- Two files: a plain macro and one that wraps a block, whose body holds a directive, between lines
    that count for neither, and then the plain one again, in other spacing and with no lines. -/
def twoFiles : List MacroFile :=
  [⟨"first", [.other "  // arithmetic",
      .definition ⟨"sum %register , %register", none, ["add %1, %2"], [], false⟩,
      .other "", .other "NOP // not part of a macro",
      .definition ⟨"if  %register", some " end if ", ["jz %1, l%uid"], ["#pragma once", "l%uid:"],
        true⟩]⟩,
    ⟨"second", [.definition ⟨" sum  %register,%register", some "sum", [], [], false⟩, .other ""]⟩]

theorem loadMacros_twoFiles :
    (∀ f ∈ twoFiles, f.WellFormed) ∧ (∀ f ∈ twoFiles, ∀ d ∈ f.definitions, d.Fits) ∧
      (loadMacros (twoFiles.map MacroFile.lines)).1.names =
        ["sum %register,%register", "if %register"] ∧
      (loadMacros (twoFiles.map MacroFile.lines)).2.toList.map (fun m => (m.severity, m.text)) =
        [(.warning, "Re-defined macro: `sum %register,%register`")] := by
  have hfiles : ∀ f ∈ twoFiles, f.WellFormed := by decide +kernel
  have hfits : ∀ f ∈ twoFiles, ∀ d ∈ f.definitions, d.Fits := by decide +kernel
  obtain ⟨-, hnames, -, htexts⟩ := loadMacros_written hfiles hfits
  exact ⟨hfiles, hfits, hnames.trans (by decide +kernel), htexts.trans (by decide +kernel)⟩

end Compilation

/-! ## The limit -/

theorem Text.normalize_commas (n : Nat) :
    Text.normalize (List.replicate n ',') = List.replicate n ',' := by
  refine Text.normalize_of_forall fun c hc => ?_
  obtain rfl := List.eq_of_mem_replicate hc
  decide

theorem Opener.ofChars_commas (n : Nat) :
    Opener.ofChars (List.replicate n ',') = .ok (List.replicate n .comma) := by
  induction n with
  | zero => rfl
  | succ n ih =>
    rw [List.replicate_succ, Opener.ofChars_cons_of_ne (by decide), ih]
    rfl

/-- Read backwards, each comma takes room for the blanks on both sides of it. -/
theorem MatcherSize.backward_foldl_commas (n : Nat) (size : MatcherSize) :
    ((List.replicate n Piece.comma).foldl (fun size p => size + ofPiece p) size).backward =
      size.backward + n * 1472 := by
  induction n generalizing size with
  | zero => rfl
  | succ n ih =>
    have hcomma : (ofPiece .comma).backward = 1472 := by decide
    have hadd : (size + ofPiece .comma).backward = size.backward + 1472 :=
      congrArg (size.backward + ·) hcomma
    rw [List.replicate_succ, List.foldl_cons, ih, hadd]
    omega

theorem MatcherSize.fits_commas {n : Nat} (hn : 7124 ≤ n) :
    (ofOpener (List.replicate n .comma)).fits = false := by
  have hbackward : limit < (ofOpener (List.replicate n .comma)).backward := by
    rw [ofOpener, backward_foldl_commas, limit]
    omega
  rw [fits, Bool.and_eq_false_iff, decide_eq_false_iff_not, decide_eq_false_iff_not]
  exact .inr (Nat.not_le_of_lt hbackward)

/-- A macro whose opener is nothing but commas. -/
def manyCommas (n : Nat) : MacroSource :=
  ⟨String.ofList (List.replicate n ','), none, ["nop"], [], false⟩

theorem wellFormed_manyCommas {n : Nat} (hn : n ≠ 0) : (manyCommas n).WellFormed := by
  have hmem : ∀ c ∈ List.replicate n ',', c = ',' := fun c hc => List.eq_of_mem_replicate hc
  have hopener : (manyCommas n).opener.toList = List.replicate n ',' := String.toList_ofList
  have hcloser : ∀ closer ∈ (manyCommas n).closer, Line.IsCodeText closer := by
    intro closer h
    cases h
  have htop : ∀ code ∈ (manyCommas n).top, IsBodyCode code :=
    List.forall_mem_singleton.2 (by decide)
  have hclosed : (manyCommas n).wraps = true → (manyCommas n).closerText ≠ "" := by
    intro h
    cases h
  refine ⟨?_, ?_, ⟨?_, ?_, ?_⟩, hcloser, htop, List.forall_mem_nil _, fun _ => rfl, hclosed⟩
  · rw [hopener, Text.normalize_commas]
    exact mt (List.replicate_eq_nil_iff _).1 hn
  · have hmark : '%' ∉ List.replicate n ',' := fun h => absurd (hmem _ h) (by decide)
    rw [hopener, Text.normalize_commas, Text.Cut.tokens_of_notMem hmark]
    exact List.forall_mem_nil _
  · rw [hopener]
    refine Text.lower_eq_self_iff.2 fun c hc => ?_
    obtain rfl := hmem c hc
    decide
  · rw [hopener]
    exact fun h => absurd (hmem _ (h.subset List.mem_cons_self)) (by decide)
  · rw [hopener]
    exact fun h => absurd (hmem _ h) (by decide)

/-- There is no matcher for an opener of too many commas, and the macro is refused. -/
theorem hasError_manyCommas {n : Nat} (hn : 7124 ≤ n) (path : String) :
    (Compilation.loadMacros [MacroFile.lines ⟨path, [.definition (manyCommas n)]⟩]).2.hasError =
      true := by
  have hwell : (manyCommas n).WellFormed := wellFormed_manyCommas (by omega)
  have hfile : MacroFile.WellFormed ⟨path, [.definition (manyCommas n)]⟩ :=
    List.forall_mem_singleton.2 hwell
  obtain ⟨o, ho, hmade⟩ := hwell.asMacro_eq
  have hpieces : o = List.replicate n .comma := by
    rw [manyCommas, String.toList_ofList, Text.normalize_commas, Opener.ofChars_commas] at ho
    exact (Except.ok.inj ho).symm
  rw [hpieces, MatcherSize.fits_commas hn, if_neg Bool.false_ne_true] at hmade
  obtain ⟨lines, hlines, hload⟩ := hfile.exists_load_eq .empty
  rw [List.flatMap_singleton] at hlines
  obtain ⟨start, hfold⟩ := MacroReader.foldl_raws (r := ⟨.empty, none, .empty⟩) hwell rfl hlines
  rw [← List.nil_append [MacroFile.lines _], Compilation.loadMacros_concat, Report.hasError_append,
    Bool.or_eq_true]
  refine .inr ?_
  have hreport : (MacroTable.load .empty lines).2 =
      (MacroReader.enter ⟨.empty, none, .empty⟩ (manyCommas n) start).close.report := by
    rw [MacroTable.load, hfold]
  rw [MacroReader.enter, hmade] at hreport
  refine (congrArg Report.hasError ((congrArg Prod.snd hload).trans hreport)).trans ?_
  exact MacroReader.hasError_addMessage _ rfl

/-- Well-formed parts are not enough for a macro to be read. -/
theorem tenThousandCommas_refused :
    (manyCommas 10000).WellFormed ∧ (Compilation.loadMacros
      [MacroFile.lines ⟨"d", [.definition (manyCommas 10000)]⟩]).2.hasError = true :=
  ⟨wellFormed_manyCommas (by decide), hasError_manyCommas (by decide) "d"⟩

end MacroAsm
