import MacroAsm.Proofs.Compilation.Stages
import MacroAsm.Proofs.Lists
import MacroAsm.Proofs.Memory.Granting
import MacroAsm.Proofs.Program.Arguments
import MacroAsm.Proofs.Program.Encoding

set_option autoImplicit false

/-! # Well-formed programs

What a program promises to those who write it out: its parts describe the same instructions in the
same order, every number in a word is in the range that its operand allows, and each variable has a
byte of memory for itself. -/

namespace MacroAsm

/-- The parts of a program agree, and its numbers are in range. -/
structure Program.WellFormed (o : Options) (p : Program) : Prop where
  length_rom : p.rom.length ≤ romCapacity
  length_lines : p.lines.length = p.rom.length
  length_source : p.source.length = p.rom.length
  /-- The words stand in the same order between labels. -/
  romWithLabels : p.romWithLabels.filterMap RomEntry.word? = p.rom
  /-- The slots of the instructions count from zero. -/
  slots : p.instructions.map (fun x => x.2.map UInt16.toNat) = (List.range p.rom.length).map some
  /-- Each instruction resolves to the word at its slot. -/
  resolved : p.instructions.map
    (fun x => x.1.resolve (Compilation.scopeOf o p.addresses p.labels).value) = p.rom.map .ok
  fits : ∀ x ∈ p.instructions.zip p.rom, x.1.1.Fits o p.rom.length x.2
  nodup_variables : (p.addresses.entries.map Prod.fst).Nodup
  nodup_addresses : (p.addresses.entries.map Prod.snd).Nodup
  address_lt : ∀ x ∈ p.addresses.entries, x.2.toNat < o.memorySize

namespace Compilation

variable {o : Options} {main : List Line} {files : List (List Line)}

/-- The addresses are in memory, and no two variables share one. -/
theorem assigned_sound (ho : o.Valid) :
    (∀ {name a}, (assigned o main files).1.find? name = some a → a.toNat < o.memorySize) ∧
      ∀ {name name' a}, (assigned o main files).1.find? name = some a →
        (assigned o main files).1.find? name' = some a → name = name' := by
  obtain ⟨s, hs, heq⟩ :=
    (Layout.find main).1.assign_sound (expanded main files).1 ho.memorySize.2
  have hpos := ho.memorySize.1
  rw [assigned, heq]
  refine ⟨fun h => ?_, fun h h' => hs.injective h h'⟩
  have hle := hs.le_last h
  omega

/-- There is a slot for each instruction. -/
theorem length_instructions_linked :
    (linked o main files).1.instructions.length = (listed main files).next := by
  have h := congrArg List.length (Listing.numbered_ofLines (expanded main files).1).slots
  rw [List.length_map, List.length_map, List.length_range] at h
  exact h

theorem scope_sound (ho : o.Valid) :
    (scope o main files).Sound o (listed main files).next :=
  ⟨rfl, rfl, (Listing.numbered_ofLines (expanded main files).1).label_le, (assigned_sound ho).1⟩

/-- A program without errors is well-formed. -/
theorem linked_wellFormed (ho : o.Valid) (he : (linked o main files).2.hasError = false) :
    (linked o main files).1.WellFormed o := by
  have hnumbered := Listing.numbered_ofLines (expanded main files).1
  have hrom := Program.rom_link (scope o main files) (listed main files).parsed.toList
  -- without an error all instructions are encoded, so each slot has its word
  have hfst := Program.map_fst_encodedIn he
  have hlength : (linked o main files).1.rom.length = (listed main files).next := by
    have h := congrArg List.length hfst
    rw [List.length_map, List.length_map] at h
    rw [linked, hrom, List.length_map, h]
    exact length_instructions_linked
  have hresolved : (linked o main files).1.instructions.map
      (fun x => x.1.resolve (scope o main files).value) = (linked o main files).1.rom.map .ok := by
    have h := congrArg (List.map fun i : Instruction => i.resolve (scope o main files).value) hfst
    rw [List.map_map, List.map_map] at h
    rw [linked, hrom, List.map_map]
    refine h.symm.trans (List.map_congr_left fun x hx => ?_)
    exact Program.resolve_of_mem_encodedIn hx
  exact {
    length_rom := by
      rw [hlength]
      exact hnumbered.next_le
    length_lines := by rw [linked, Program.lines_link, hrom, List.length_map, List.length_map]
    length_source := by rw [linked, Program.source_link, hrom, List.length_map, List.length_map]
    romWithLabels := Program.romWithLabels_link _ _
    slots := by
      rw [hlength]
      exact hnumbered.slots
    resolved := hresolved
    fits := by
      intro x hx
      rw [hlength]
      exact (scope_sound ho).resolve_fits ho (eq_of_mem_zip hresolved hx)
    nodup_variables := by
      rw [Registry.map_fst_entries]
      exact Registry.nodup_names _
    nodup_addresses := Registry.nodup_map_snd_entries fun h h' => (assigned_sound ho).2 h h'
    address_lt := fun x hx => (assigned_sound ho).1 (Registry.mem_entries.1 hx) }

/-- A program is made of what has been linked without an error. -/
theorem linked_of_ofLines {t : FileTree} {path : String} {c : Compilation} {p : Program}
    (h : ofLines t path main o = .ok c) (hp : c.program = some p) :
    o.Valid ∧ ∃ files, p = (linked o main files).1 ∧ (linked o main files).2.hasError = false := by
  obtain ⟨hv, found, -, rfl, he⟩ := program_of_ofLines h hp
  rw [fullReport, Report.hasError_append, Bool.or_eq_false_iff] at he
  exact ⟨Options.validate_eq_ok_iff.1 hv, _, rfl, he.2⟩

/-- The addresses of a program have 16 bits. -/
theorem length_rom_of_ofLines {t : FileTree} {path : String} {c : Compilation} {p : Program}
    (h : ofLines t path main o = .ok c) (hp : c.program = some p) : p.rom.length ≤ 65535 := by
  obtain ⟨ho, files, rfl, he⟩ := linked_of_ofLines h hp
  exact (linked_wellFormed ho he).length_rom

/-- Every compilation makes well-formed programs only, whatever the sources and the options. -/
theorem program_wellFormed {t : FileTree} {path : String} {c : Compilation} {p : Program}
    (h : ofLines t path main o = .ok c) (hp : c.program = some p) : p.WellFormed o := by
  obtain ⟨ho, files, rfl, he⟩ := linked_of_ofLines h hp
  exact linked_wellFormed ho he

/-- A loop over a register, with a variable, an address and a label behind the last instruction. -/
def countdown : List Line :=
  Line.ofText "main" "start:\n mov &r1, -2\n mov *n, &r1\n mov &r2, $0x10\nloop: // n\n dec &r1
jnz &r1, loop\n jmp done\n mov *&r1, &r2\ndone:"

/-- It is compiled to a well-formed program. -/
theorem countdown_wellFormed :
    ∃ c p, ofLines ⟨[], []⟩ "main" countdown .default = .ok c ∧ c.program = some p ∧
      p.rom = [⟨.ldi, 1, 254⟩, ⟨.st, 0, 1⟩, ⟨.ld, 2, 16⟩, ⟨.dec, 1, 0⟩, ⟨.jnz, 1, 3⟩, ⟨.jmp, 7, 0⟩,
        ⟨.stp, 1, 2⟩] ∧ p.WellFormed .default := by
  have hfacts : Includes.requests "main" countdown = [] ∧
      (fullReport .default countdown []
        (.ofList (countdown.filterMap directiveMessage?) ++ .empty)).hasError = false ∧
      (linked .default countdown []).1.rom =
        [⟨.ldi, 1, 254⟩, ⟨.st, 0, 1⟩, ⟨.ld, 2, 16⟩, ⟨.dec, 1, 0⟩, ⟨.jnz, 1, 3⟩, ⟨.jmp, 7, 0⟩,
          ⟨.stp, 1, 2⟩] := by
    decide +kernel
  obtain ⟨hrequests, he, hrom⟩ := hfacts
  obtain ⟨c, h, hp⟩ :=
    ofLines_eq_ok_of_requests ⟨[], []⟩ (by decide +kernel) hrequests (.inl rfl) he
  exact ⟨c, _, h, hp, hrom, program_wellFormed h hp⟩

end Compilation

end MacroAsm
