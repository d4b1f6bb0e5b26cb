import Mathlib.Data.List.Basic
import MacroAsm.Program.Linking
import MacroAsm.Proofs.Program.Slots

set_option autoImplicit false

/-! # Encoded instructions

Words, native lines and source lines of a program are all made of the same list, its encoded
instructions (`Program.encodedIn`). An instruction that cannot be encoded is not in that list, but
then it has an error; without errors the list holds all instructions. -/

namespace MacroAsm

/-- The word of an entry that is no label. -/
def RomEntry.word? : RomEntry → Option RomWord
  | .label _ => none
  | .word w => some w

/-! ## One line -/

namespace Encoded

/-- An instruction that was encoded, with its word. -/
def encoded? : Encoded → Option (Instruction × RomWord)
  | .word i w => some (i, w)
  | _ => none

theorem word?_eq (e : Encoded) : e.word? = e.encoded?.map Prod.snd := by
  cases e <;> rfl

theorem source?_eq (e : Encoded) : e.source? = e.encoded?.map fun x => x.1.written := by
  cases e <;> rfl

theorem native?_eq (scope : Scope) (e : Encoded) :
    e.native? scope = e.encoded?.map fun x => scope.native x.1 := by
  cases e <;> rfl

/-- A listed entry that is no label is a word. -/
theorem word?_listed? (e : Encoded) : e.listed?.bind RomEntry.word? = e.word? := by
  cases e <;> rfl

/-- The word of an instruction is what it resolves to. -/
theorem resolve_of_encoded? {scope : Scope} {s : Option Statement} {x : Instruction × RomWord}
    (h : (ofStatement scope s).encoded? = some x) : x.1.resolve scope.value = .ok x.2 := by
  unfold ofStatement at h
  split at h
  · simp [encoded?] at h
  · simp [encoded?] at h
  · split at h
    · next w hw =>
      obtain rfl := Option.some.inj h
      exact hw
    · simp [encoded?] at h

/-- A listed label is that of its line. -/
theorem of_listed?_eq_label {scope : Scope} {s : Option Statement} {name : String}
    (h : (ofStatement scope s).listed? = some (.label name)) : s = some (.label name) := by
  unfold ofStatement at h
  split at h
  · simp [listed?] at h
  · obtain rfl := RomEntry.label.inj (Option.some.inj h)
    rfl
  · split at h
    · simp [listed?] at h
    · simp [listed?] at h

/-- Without an error the instruction of a line is encoded. -/
theorem encoded?_of_message? {scope : Scope} {p : ParsedLine}
    (h : (ofStatement scope p.statement).message? p = none) :
    (ofStatement scope p.statement).encoded?.map Prod.fst = p.instruction?.map Prod.fst := by
  unfold ParsedLine.instruction?
  cases hs : p.statement with
  | none => rfl
  | some s =>
    cases s with
    | label name => rfl
    | instruction i =>
      rw [hs] at h
      simp only [ofStatement] at h ⊢
      split at h
      · rfl
      · simp [message?] at h

/-- What is reported of a line is an error. -/
theorem severity_of_message? {p : ParsedLine} {e : Encoded} {m : Message}
    (h : e.message? p = some m) : m.severity = .error := by
  unfold message? at h
  split at h
  · obtain rfl := Option.some.inj h
    rfl
  · simp at h

end Encoded

/-! ## All lines -/

namespace Program

/-- The instructions of a program, with their slots. -/
def instructions (p : Program) : List (Instruction × Option UInt16) :=
  p.parsed.filterMap ParsedLine.instruction?

/-- The instructions of some lines that are encoded, with their words. -/
def encodedIn (scope : Scope) (parsed : List ParsedLine) : List (Instruction × RomWord) :=
  parsed.filterMap fun p => (Encoded.ofStatement scope p.statement).encoded?

section Link

variable (scope : Scope) (parsed : List ParsedLine)

theorem rom_link : (link scope parsed).1.rom = (encodedIn scope parsed).map Prod.snd := by
  simp only [link, encodedIn, List.filterMap_map, List.map_filterMap, Function.comp_def,
    Encoded.word?_eq]

theorem lines_link :
    (link scope parsed).1.lines = (encodedIn scope parsed).map fun x => scope.native x.1 := by
  simp only [link, encodedIn, List.filterMap_map, List.map_filterMap, Function.comp_def,
    Encoded.native?_eq]

theorem source_link :
    (link scope parsed).1.source = (encodedIn scope parsed).map fun x => x.1.written := by
  simp only [link, encodedIn, List.filterMap_map, List.map_filterMap, Function.comp_def,
    Encoded.source?_eq]

/-- Without its labels the program memory is as it is without labels. -/
theorem romWithLabels_link :
    (link scope parsed).1.romWithLabels.filterMap RomEntry.word? = (link scope parsed).1.rom := by
  simp only [link, List.filterMap_map, List.filterMap_filterMap, Function.comp_def,
    Encoded.word?_listed?]

end Link

variable {scope : Scope} {parsed : List ParsedLine}

/-- The labels in the program memory are those of the lines. -/
theorem exists_of_label_mem {name : String}
    (h : RomEntry.label name ∈ (link scope parsed).1.romWithLabels) :
    ∃ l ∈ parsed, l.statement = some (.label name) := by
  simp only [link, List.filterMap_map] at h
  obtain ⟨l, hl, he⟩ := List.mem_filterMap.1 h
  exact ⟨l, hl, Encoded.of_listed?_eq_label he⟩

/-- Each word is what its instruction resolves to. -/
theorem resolve_of_mem_encodedIn {x : Instruction × RomWord} (hx : x ∈ encodedIn scope parsed) :
    x.1.resolve scope.value = .ok x.2 := by
  obtain ⟨p, -, hp⟩ := List.mem_filterMap.1 hx
  exact Encoded.resolve_of_encoded? hp

/-- Without an error no line has one. -/
theorem message?_of_link (h : (link scope parsed).2.hasError = false) {p : ParsedLine}
    (hp : p ∈ parsed) : (Encoded.ofStatement scope p.statement).message? p = none := by
  cases hm : (Encoded.ofStatement scope p.statement).message? p with
  | none => rfl
  | some m =>
    have hmem : m ∈ (link scope parsed).2.toList := by
      simp only [link, Report.toList_ofList, List.filterMap_map]
      exact List.mem_filterMap.2 ⟨p, hp, hm⟩
    have hsev := List.any_eq_false.1 h m hmem
    simp [Encoded.severity_of_message? hm] at hsev

/-- Without an error all instructions are encoded. -/
theorem map_fst_encodedIn (h : (link scope parsed).2.hasError = false) :
    (encodedIn scope parsed).map Prod.fst = (link scope parsed).1.instructions.map Prod.fst := by
  simp only [encodedIn, instructions, link, List.map_filterMap]
  exact List.filterMap_congr fun p hp => Encoded.encoded?_of_message? (message?_of_link h hp)

/-! ## The same statements -/

/-- Lines that say nothing contribute nothing. -/
theorem filterMap_ofStatement {β : Type} {f : Encoded → Option β} (hf : f .nothing = none)
    (scope : Scope) (parsed : List ParsedLine) :
    (parsed.filterMap fun p => f (Encoded.ofStatement scope p.statement)) =
      (parsed.filterMap ParsedLine.statement).filterMap fun s =>
        f (Encoded.ofStatement scope (some s)) := by
  rw [List.filterMap_filterMap]
  refine List.filterMap_congr fun p _ => ?_
  cases p.statement with
  | none => exact hf
  | some s => rfl

/-- Programs that are made of the same statements, with the same values for their operands, have
    equal parts. -/
theorem link_congr {scope' : Scope} {parsed' : List ParsedLine}
    (hvalue : scope'.value = scope.value) (hwritten : scope'.written = scope.written)
    (h : parsed'.filterMap ParsedLine.statement = parsed.filterMap ParsedLine.statement) :
    (link scope' parsed').1.rom = (link scope parsed).1.rom ∧
      (link scope' parsed').1.romWithLabels = (link scope parsed).1.romWithLabels ∧
      (link scope' parsed').1.lines = (link scope parsed).1.lines ∧
      (link scope' parsed').1.source = (link scope parsed).1.source := by
  have hencoded : Encoded.ofStatement scope' = Encoded.ofStatement scope := by
    funext s
    unfold Encoded.ofStatement
    rw [hvalue]
  have hnative : Encoded.native? scope' = Encoded.native? scope := by
    funext e
    cases e <;> simp [Encoded.native?, Scope.native, hwritten]
  have hpart {β : Type} {f : Encoded → Option β} (hf : f .nothing = none) :
      (parsed'.filterMap fun p => f (Encoded.ofStatement scope' p.statement)) =
        parsed.filterMap fun p => f (Encoded.ofStatement scope p.statement) := by
    rw [filterMap_ofStatement hf, filterMap_ofStatement hf, h, hencoded]
  simp only [link, List.filterMap_map, Function.comp_def, hnative]
  exact ⟨hpart rfl, hpart rfl, hpart rfl, hpart rfl⟩

/-- Whether there is an error depends on the statements only. -/
theorem hasError_link_congr {scope' : Scope} {parsed' : List ParsedLine}
    (hvalue : scope'.value = scope.value)
    (h : parsed'.filterMap ParsedLine.statement = parsed.filterMap ParsedLine.statement)
    (he : (link scope parsed).2.hasError = false) : (link scope' parsed').2.hasError = false := by
  refine List.any_eq_false.2 fun m hm => ?_
  simp only [link, Report.toList_ofList, List.filterMap_map] at hm
  obtain ⟨p', hp', hm⟩ := List.mem_filterMap.1 hm
  exfalso
  cases hs : p'.statement with
  | none => simp [hs, Encoded.ofStatement, Encoded.message?] at hm
  | some s =>
    have hmem : s ∈ parsed'.filterMap ParsedLine.statement := List.mem_filterMap.2 ⟨p', hp', hs⟩
    rw [h] at hmem
    -- the same statement stands on one of the other lines, where it has no error
    obtain ⟨p, hp, hps⟩ := List.mem_filterMap.1 hmem
    have hnone := message?_of_link he hp
    have hsame : Encoded.ofStatement scope' p'.statement =
        Encoded.ofStatement scope p.statement := by
      rw [hs, hps]
      unfold Encoded.ofStatement
      rw [hvalue]
    simp only [Function.comp_apply, hsame] at hm
    cases he' : Encoded.ofStatement scope p.statement with
    | failed i e => simp [he', Encoded.message?] at hnone
    | nothing => simp [he', Encoded.message?] at hm
    | label name => simp [he', Encoded.message?] at hm
    | word i w => simp [he', Encoded.message?] at hm

end Program

/-! ## The same scope -/

/-- The values of operands depend on the sizes and on what the tables hold. -/
theorem Scope.value_congr {s s' : Scope} (hregister : s'.registerCount = s.registerCount)
    (hmemory : s'.memorySize = s.memorySize) (haddress : s'.addresses = s.addresses)
    (hlabel : ∀ name, s'.labels.slot? name = s.labels.slot? name) :
    s'.value = s.value ∧ s'.written = s.written := by
  constructor
  · funext x
    cases x <;> simp [value, registerValue, hregister, hmemory, haddress, hlabel]
  · funext x
    cases x <;> simp [written, haddress, hlabel]

end MacroAsm
