import MacroAsm.Proofs.Compilation.SameStatements
import MacroAsm.Proofs.Compilation.WellFormed
import MacroAsm.Proofs.Program.Statements

set_option autoImplicit false

/-! # Instructions of a program

What a target may rely on for each word of a program: it stands for an instruction of the machine, whose
text is kept, and its numbers are those that the operands allow. -/

namespace MacroAsm

/-- An encoded instruction is that of its line. -/
theorem Encoded.of_encoded? {scope : Scope} {s : Option Statement} {x : Instruction × RomWord}
    (h : (ofStatement scope s).encoded? = some x) : s = some (.instruction x.1) := by
  unfold ofStatement at h
  split at h
  · simp [encoded?] at h
  · simp [encoded?] at h
  · split at h
    · obtain rfl := Option.some.inj h
      rfl
    · simp [encoded?] at h

/-! ## Numbers of a word -/

/-- Whether a number may stand for an operand of a kind in a program of `n` instructions. -/
def OperandKind.Fits (o : Options) (n : Nat) (v : UInt16) : OperandKind → Prop
  | .register | .pointer => v.toNat < o.registerCount
  | .variable | .address => v.toNat < o.memorySize
  | .number => v.toNat ≤ 255
  | .label => v.toNat ≤ n
  | .quoted => False

theorem Operand.fits_kind {o : Options} {n : Nat} {v : UInt16} {x : Operand} (h : x.Fits o n v) :
    x.kind.Fits o n v := by
  cases x <;> exact h

/-- A variable stands for an address. -/
def OperandKind.resolved : OperandKind → OperandKind
  | .variable => .address
  | k => k

theorem OperandKind.fits_of_resolved {o : Options} {n : Nat} {v : UInt16} {k l : OperandKind}
    (h : k.Fits o n v) (hkl : k.resolved = l.resolved) : l.Fits o n v := by
  have hresolved (k : OperandKind) : k.resolved.Fits o n v ↔ k.Fits o n v := by
    cases k <;> rfl
  rwa [← hresolved, hkl, hresolved] at h

/-- The kinds of the operands of an operation. -/
def Opcode.kinds (op : Opcode) : List OperandKind :=
  ((Form.native.find? fun f => f.op == op).map Form.kinds).getD []

/-- An operation has operands of the same kinds in all its forms, a variable in place of an address
    aside. -/
theorem Form.resolved_kinds : ∀ f ∈ native,
    f.kinds.map OperandKind.resolved = f.op.kinds.map OperandKind.resolved := by
  decide +kernel

/-- Whether the numbers of a word name registers, addresses and places that are there. -/
structure RomWord.InRange (o : Options) (n : Nat) (w : RomWord) : Prop where
  a : ∀ {k : OperandKind}, w.op.kinds[0]? = some k → k.Fits o n w.a
  b : ∀ {k : OperandKind}, w.op.kinds[1]? = some k → k.Fits o n w.b

theorem Instruction.Native.inRange {o : Options} {n : Nat} {i : Instruction} {w : RomWord}
    (h : i.Native) (hfits : i.Fits o n w) : w.InRange o n := by
  have hkinds := Form.resolved_kinds _ h.form
  have hargument {v : UInt16} {j : Nat} {k : OperandKind} (hx : ArgumentFits o n v i.operands[j]?)
      (hk : w.op.kinds[j]? = some k) : k.Fits o n v := by
    have hj := congrArg (·[j]?) hkinds
    simp only [Form.ofOp, List.getElem?_map, ← hfits.op, hk, Option.map_some] at hj
    cases hoperand : i.operands[j]? with
    | none => simp [hoperand] at hj
    | some x =>
      rw [hoperand] at hx hj
      exact OperandKind.fits_of_resolved (Operand.fits_kind hx) (Option.some.inj hj)
  exact ⟨hargument hfits.a, hargument hfits.b⟩

namespace Program

/-- The words of a program stand for instructions of the machine, which are kept as they were
    written. -/
structure Stands (o : Options) (p : Program) (xs : List (Instruction × RomWord)) : Prop where
  rom : p.rom = xs.map Prod.snd
  source : p.source = xs.map fun x => x.1.written
  native : ∀ x ∈ xs, x.1.Native
  fits : ∀ x ∈ xs, x.1.Fits o p.rom.length x.2

end Program

namespace Compilation

variable {o : Options} {main : List Line}

theorem program_stands {t : FileTree} {path : String} {c : Compilation} {p : Program}
    (h : ofLines t path main o = .ok c) (hp : c.program = some p) : ∃ xs, p.Stands o xs := by
  obtain ⟨hv, found, -, rfl, he⟩ := program_of_ofLines h hp
  have hfaultless := faultless_of_fullReport he
  have hreads := reads_listed hfaultless.fits
  have ho := Options.validate_eq_ok_iff.1 hv
  have hwell := linked_wellFormed ho hfaultless.linked
  have hlength : (linked o main (found.files.toList.map Includes.Loaded.lines)).1.rom.length =
      (listed main (found.files.toList.map Includes.Loaded.lines)).next := by
    have hslots := congrArg List.length hwell.slots
    rw [List.length_map, List.length_map, List.length_range] at hslots
    exact hslots.symm.trans length_instructions_linked
  refine ⟨Program.encodedIn (scope o main (found.files.toList.map Includes.Loaded.lines))
    (listed main (found.files.toList.map Includes.Loaded.lines)).parsed.toList,
    Program.rom_link _ _, Program.source_link _ _, ?_, ?_⟩
  · intro x hx
    obtain ⟨l, hl, hencoded⟩ := List.mem_filterMap.1 hx
    obtain ⟨hmem, hstatement⟩ := hreads.of_mem hl
    have hparse := hfaultless.fits.readable l.line hmem
    rw [← hstatement, Encoded.of_encoded? hencoded] at hparse
    exact Statement.readable_of_parse hparse
  · intro x hx
    rw [hlength]
    exact (scope_sound ho).resolve_fits ho (Program.resolve_of_mem_encodedIn hx)

end Compilation

namespace Program

variable {o : Options} {p : Program} {xs : List (Instruction × RomWord)}

theorem Stands.inRange (h : p.Stands o xs) {w : RomWord} (hw : w ∈ p.rom) :
    w.InRange o p.rom.length := by
  rw [h.rom] at hw
  obtain ⟨x, hx, rfl⟩ := List.mem_map.1 hw
  exact (h.native x hx).inRange (h.fits x hx)

/-- The texts that a program keeps hold nothing but the characters of code. -/
theorem Stands.isCodeChar_of_mem_source (h : p.Stands o xs) {source : String}
    (hsource : source ∈ p.source) {c : Char} (hc : c ∈ source.toList) : isCodeChar c = true := by
  rw [h.source] at hsource
  obtain ⟨x, hx, rfl⟩ := List.mem_map.1 hsource
  have hreadable : (Statement.instruction x.1).Readable := h.native x hx
  exact Statement.isCodeChar_of_mem_written hreadable hc

end Program

end MacroAsm
