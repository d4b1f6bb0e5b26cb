import Mathlib.Data.List.Forall2
import MacroAsm.Compilation
import MacroAsm.Proofs.Program.AnnotatedLines
import MacroAsm.Proofs.Program.Resolving

set_option autoImplicit false

/-! # Admission

Whether an operand has a value can be told from the sizes of the machine and the tables of the
program (`Operand.Admissible`). Linking refuses the instructions that have an operand without a value,
each with one error, and every other instruction gives one word, one native line and one source line
(`Program.link_admits`). Machine instructions have two operands at most, so an encoded instruction
shows all of them. -/

namespace MacroAsm

/-! ## Operands -/

namespace Operand

/-- Whether an operand has a value. -/
def Admissible (s : Scope) : Operand → Prop
  | .register r | .pointer r => r.index.val < s.registerCount
  | .variable name => (s.addresses.find? name).isSome = true
  | .address a => 0 ≤ a ∧ a < s.memorySize
  | .number n => -128 ≤ n ∧ n ≤ 255
  | .label name => (s.labels.slot? name).isSome = true
  | .quoted _ => False

instance (s : Scope) : DecidablePred (Admissible s)
  | .register r | .pointer r => inferInstanceAs (Decidable (r.index.val < s.registerCount))
  | .variable name => inferInstanceAs (Decidable ((s.addresses.find? name).isSome = true))
  | .address a => inferInstanceAs (Decidable (0 ≤ a ∧ a < s.memorySize))
  | .number n => inferInstanceAs (Decidable (-128 ≤ n ∧ n ≤ 255))
  | .label name => inferInstanceAs (Decidable ((s.labels.slot? name).isSome = true))
  | .quoted _ => inferInstanceAs (Decidable False)

/-- Whether a word stands for an operand. Numbers stand for their remainder, which is the two's
    complement of the negative ones. -/
def StandsFor (s : Scope) (v : UInt16) : Operand → Prop
  | .register r | .pointer r => v.toNat = r.index.val
  | .variable name => s.addresses.find? name = some v
  | .address a => (v.toNat : Int) = a
  | .number n => (v.toNat : Int) = n % 256
  | .label name => s.labels.slot? name = some v
  | .quoted _ => False

/-- What is reported of an operand that has no value. -/
def refusal (s : Scope) : Operand → ResolveError
  | .register r | .pointer r => .noRegister r s.registerCount
  | .variable name => .noAddress name
  | .address a => .outsideMemory a s.memorySize
  | .number n => .notByte n
  | .label name => .noLabel name
  | .quoted _ => .quoted

end Operand

namespace Scope

variable {s : Scope}

/-- The index of a register is small enough for a word. -/
theorem registerValue_of_lt {r : Register} (h : r.index.val < s.registerCount) :
    ∃ v, s.registerValue r = .ok v ∧ v.toNat = r.index.val := by
  refine ⟨_, if_pos h, ?_⟩
  rw [UInt16.toNat_ofNat']
  omega

/-- Admissible operands have values. Memory is small enough that no address loses digits when it
    becomes a word. -/
theorem value_of_admissible (hsize : s.memorySize ≤ 65536) {x : Operand} (h : x.Admissible s) :
    ∃ v, s.value x = .ok v ∧ x.StandsFor s v := by
  cases x with
  | register r => exact registerValue_of_lt h
  | pointer r => exact registerValue_of_lt h
  | «variable» name =>
    obtain ⟨a, ha⟩ := Option.isSome_iff_exists.1 h
    exact ⟨a, by simp only [value, ha], ha⟩
  | address a =>
    obtain ⟨hlow, hhigh⟩ := h
    refine ⟨_, if_pos ⟨hlow, hhigh⟩, ?_⟩
    simp only [Operand.StandsFor, UInt16.toNat_ofNat']
    omega
  | number n =>
    refine ⟨_, if_pos h, ?_⟩
    simp only [Operand.StandsFor, UInt16.toNat_ofNat']
    omega
  | label name =>
    obtain ⟨slot, hslot⟩ := Option.isSome_iff_exists.1 h
    exact ⟨slot, by simp only [value, hslot], hslot⟩
  | quoted t => exact absurd h id

/-- Operands that are not admissible have none. -/
theorem value_of_not_admissible {x : Operand} (h : ¬ x.Admissible s) :
    s.value x = .error (x.refusal s) := by
  cases x with
  | register r => exact if_neg h
  | pointer r => exact if_neg h
  | «variable» name =>
    have hnone := Option.not_isSome_iff_eq_none.1 h
    simp only [value, hnone, Operand.refusal]
  | address a => exact if_neg h
  | number n => exact if_neg h
  | label name =>
    have hnone := Option.not_isSome_iff_eq_none.1 h
    simp only [value, hnone, Operand.refusal]
  | quoted t => rfl

end Scope

/-! ## Instructions -/

/-- The machine has no instruction with more than two operands. -/
theorem Form.length_kinds_le : ∀ f ∈ native, f.kinds.length ≤ 2 := by
  decide +kernel

namespace Instruction

/-- Whether all operands of an instruction have values. -/
def Admissible (s : Scope) (i : Instruction) : Prop :=
  ∀ x ∈ i.operands, x.Admissible s

instance (s : Scope) : DecidablePred (Admissible s) :=
  fun i => inferInstanceAs (Decidable (∀ x ∈ i.operands, x.Admissible s))

/-- The first operand of an instruction that has no value. -/
def refused? (s : Scope) (i : Instruction) : Option Operand :=
  i.operands.find? fun x => !decide (x.Admissible s)

/-- Whether a word stands where an operand is expected; it is zero where there is none. -/
def ArgumentStandsFor (s : Scope) (v : UInt16) : Option Operand → Prop
  | none => v = 0
  | some x => x.StandsFor s v

/-- Whether a word of the program memory encodes an instruction. -/
structure EncodedBy (s : Scope) (i : Instruction) (w : RomWord) : Prop where
  op : w.op = i.op
  a : ArgumentStandsFor s w.a i.operands[0]?
  b : ArgumentStandsFor s w.b i.operands[1]?

variable {s : Scope} {i : Instruction}

theorem refused?_eq_none_iff : i.refused? s = none ↔ i.Admissible s := by
  simp [refused?, Admissible]

theorem not_admissible_of_refused? {x : Operand} (h : i.refused? s = some x) :
    ¬ i.Admissible s := by
  rw [← refused?_eq_none_iff, h]
  exact Option.some_ne_none x

theorem Native.length_operands_le (h : i.Native) : i.operands.length ≤ 2 := by
  have hle := Form.length_kinds_le _ h.form
  simpa [Form.ofOp] using hle

/-- An operand that is there is admissible if all are, and one that is not there is zero. -/
theorem argument_of_admissible (hsize : s.memorySize ≤ 65536) (h : i.Admissible s) (n : Nat) :
    ∃ v, argument s.value i.operands[n]? = .ok v ∧ ArgumentStandsFor s v i.operands[n]? := by
  cases hx : i.operands[n]? with
  | none => exact ⟨0, rfl, rfl⟩
  | some x => exact Scope.value_of_admissible hsize (h x (List.mem_of_getElem? hx))

/-- An instruction is encoded if all its operands have values. -/
theorem resolve_of_admissible (hsize : s.memorySize ≤ 65536) (h : i.Admissible s) :
    ∃ w, i.resolve s.value = .ok w ∧ i.EncodedBy s w := by
  obtain ⟨a, ha, hastands⟩ := argument_of_admissible hsize h 0
  obtain ⟨b, hb, hbstands⟩ := argument_of_admissible hsize h 1
  exact ⟨⟨i.op, a, b⟩, by simp only [resolve, ha, hb], ⟨rfl, hastands, hbstands⟩⟩

/-- An instruction of the machine is refused for the first of its operands that has no value. -/
theorem resolve_of_refused? (hsize : s.memorySize ≤ 65536) (h : i.Native) {x : Operand}
    (hx : i.refused? s = some x) : i.resolve s.value = .error (x.refusal s) := by
  obtain ⟨op, operands⟩ := i
  have hlength := h.length_operands_le
  rcases operands with _ | ⟨y, _ | ⟨z, _ | ⟨_, _⟩⟩⟩
  · simp [refused?] at hx
  · have hy : ¬ y.Admissible s := by
      intro hy
      simp [refused?, hy] at hx
    obtain rfl : y = x := by simpa [refused?, hy] using hx
    have hvalue := Scope.value_of_not_admissible hy
    simp [resolve, argument, hvalue]
  · by_cases hy : y.Admissible s
    · obtain ⟨v, hv, -⟩ := Scope.value_of_admissible hsize hy
      have hz : ¬ z.Admissible s := by
        intro hz
        simp [refused?, hy, hz] at hx
      obtain rfl : z = x := by simpa [refused?, hy, hz] using hx
      have hvalue := Scope.value_of_not_admissible hz
      simp [resolve, argument, hv, hvalue]
    · -- the first operand is looked at first
      obtain rfl : y = x := by simpa [refused?, hy] using hx
      have hvalue := Scope.value_of_not_admissible hy
      simp [resolve, argument, hvalue]
  · simp at hlength

end Instruction

/-! ## Lines -/

namespace ParsedLine

/-- What is reported about a line: the first operand of its instruction that has no value. -/
def refusal? (s : Scope) (l : ParsedLine) : Option Message :=
  (l.instruction?.bind fun x => x.1.refused? s).map fun x =>
    .about .error (x.refusal s).message l.line.position

/-- The instruction of a line, if all its operands have values. -/
def admitted? (s : Scope) (l : ParsedLine) : Option Instruction :=
  (l.instruction?.map Prod.fst).filter fun i => decide (i.Admissible s)

/-- Whether the line is as a listing holds it: an instruction on it is one of the machine. -/
def IsNative (l : ParsedLine) : Prop :=
  ∀ i, l.statement = some (.instruction i) → i.Native

variable {s : Scope} {l : ParsedLine}

/-- What is encoded of a line is the instruction that is admitted, and what is reported about it is
    the operand for which it is refused. -/
theorem ofStatement_eq (hsize : s.memorySize ≤ 65536) (h : l.IsNative) :
    (Encoded.ofStatement s l.statement).encoded?.map Prod.fst = l.admitted? s ∧
      (Encoded.ofStatement s l.statement).message? l = l.refusal? s ∧
      ∀ x, (Encoded.ofStatement s l.statement).encoded? = some x → x.1.EncodedBy s x.2 := by
  unfold admitted? refusal? instruction?
  cases hs : l.statement with
  | none => exact ⟨rfl, rfl, fun x hx => by simp [Encoded.ofStatement, Encoded.encoded?] at hx⟩
  | some statement =>
    cases statement with
    | label name =>
      exact ⟨rfl, rfl, fun x hx => by simp [Encoded.ofStatement, Encoded.encoded?] at hx⟩
    | instruction i =>
      cases hrefused : i.refused? s with
      | none =>
        have hadmissible := Instruction.refused?_eq_none_iff.1 hrefused
        obtain ⟨w, hw, hencoded⟩ := Instruction.resolve_of_admissible hsize hadmissible
        simp only [Encoded.ofStatement, hw]
        refine ⟨?_, ?_, fun x hx => ?_⟩
        · simp [Encoded.encoded?, Option.filter, hadmissible]
        · simp [Encoded.message?, hrefused]
        · obtain rfl := Option.some.inj hx
          exact hencoded
      | some x =>
        have hinadmissible := Instruction.not_admissible_of_refused? hrefused
        have hresolve := Instruction.resolve_of_refused? hsize (h i hs) hrefused
        simp only [Encoded.ofStatement, hresolve]
        refine ⟨?_, ?_, fun x hx => by simp [Encoded.encoded?] at hx⟩
        · simp [Encoded.encoded?, Option.filter, hinadmissible]
        · simp [Encoded.message?, hrefused]

end ParsedLine

/-- The instructions of a listing are those of the machine. -/
theorem Listing.isNative_of_mem {lines : List Line} {l : ParsedLine}
    (hl : l ∈ (Listing.ofLines lines).parsed.toList) : l.IsNative := by
  intro i hi
  rcases Listing.exists_of_mem_extend hl hi with hempty | ⟨k, -, hparse⟩
  · simp [Listing.empty] at hempty
  · exact Statement.readable_of_parse hparse

/-! ## Programs -/

namespace Program

/-- What linking makes of parsed lines, and what it reports. Their order is that of the lines
    throughout. -/
structure Admits (s : Scope) (parsed : List ParsedLine) (p : Program) (report : Report) : Prop where
  report : report.toList = parsed.filterMap (ParsedLine.refusal? s)
  rom : List.Forall₂ (Instruction.EncodedBy s) (parsed.filterMap (ParsedLine.admitted? s)) p.rom
  lines : p.lines = (parsed.filterMap (ParsedLine.admitted? s)).map s.native
  source : p.source = (parsed.filterMap (ParsedLine.admitted? s)).map Instruction.written
  listing : p.listing = (parsed.filterMap fun l =>
    AnnotatedLine.of? l.statement l.line.comment).map AnnotatedLine.written

section Link

variable {s : Scope} {parsed : List ParsedLine} (hsize : s.memorySize ≤ 65536)
  (h : ∀ l ∈ parsed, l.IsNative)

include hsize h

theorem map_fst_encodedIn_eq :
    (encodedIn s parsed).map Prod.fst = parsed.filterMap (ParsedLine.admitted? s) := by
  rw [encodedIn, List.map_filterMap]
  exact List.filterMap_congr fun l hl => (ParsedLine.ofStatement_eq hsize (h l hl)).1

theorem encodedBy_of_mem_encodedIn {x : Instruction × RomWord} (hx : x ∈ encodedIn s parsed) :
    x.1.EncodedBy s x.2 := by
  obtain ⟨l, hl, hl'⟩ := List.mem_filterMap.1 hx
  exact (ParsedLine.ofStatement_eq hsize (h l hl)).2.2 x hl'

theorem admits_link : Admits s parsed (link s parsed).1 (link s parsed).2 := by
  have hfst := map_fst_encodedIn_eq hsize h
  constructor
  · simp only [link, Report.toList_ofList, List.filterMap_map]
    exact List.filterMap_congr fun l hl => (ParsedLine.ofStatement_eq hsize (h l hl)).2.1
  · rw [rom_link, ← hfst, List.forall₂_map_left_iff, List.forall₂_map_right_iff, List.forall₂_same]
    exact fun x hx => encodedBy_of_mem_encodedIn hsize h hx
  · rw [lines_link, ← hfst, List.map_map]
    rfl
  · rw [source_link, ← hfst, List.map_map]
    rfl
  · exact listing_link s parsed

end Link

/-- **Exactly the inadmissible instructions are refused.** Whatever lines a listing is made of, and
    whatever addresses and labels it is linked with, there is one error about each instruction that
    has an operand without a value, at its line, and nothing else is reported. Every other instruction
    gives one word, whose arguments are the values of its operands, one native line and one source
    line; the listing holds every statement and every comment that says something. -/
theorem link_admits {o : Options} (ho : o.Valid) (addresses : Variables) (labels : Labels)
    (lines : List Line) :
    Admits (Compilation.scopeOf o addresses labels) (Listing.ofLines lines).parsed.toList
      (link (Compilation.scopeOf o addresses labels) (Listing.ofLines lines).parsed.toList).1
      (link (Compilation.scopeOf o addresses labels) (Listing.ofLines lines).parsed.toList).2 :=
  admits_link ho.memorySize.2 fun _ hl => Listing.isNative_of_mem hl

/-- Of four instructions the first has values for its operands, and one operand of each of the others
    has none. -/
def oneOfFour : List Line :=
  Line.ofText "main" "mov &r1, -1 // all bits\nmov &r16, 300\nloop:\nmov $300, &r1\njmp away"

/-- The scope of these lines, with no variables. -/
def oneOfFourScope : Scope :=
  Compilation.scopeOf .default .empty (Listing.ofLines oneOfFour).labels

theorem oneOfFour_admits :
    ∃ p report, link oneOfFourScope (Listing.ofLines oneOfFour).parsed.toList = (p, report) ∧
      report.toList.map (fun m => (m.text, m.position.map Position.line)) =
        [("Register &r16 does not exist, register count is 16", some 2),
          ("Address 300 is outside of memory, memory size is 256", some 4),
          ("Undefined label `away`", some 5)] ∧
      p.rom = [⟨.ldi, 1, 255⟩] ∧ p.lines = ["mov &r1, -1"] ∧
      p.listing = ["mov &r1, -1 // all bits", "mov &r16, 300", "loop:", "mov $300, &r1",
        "jmp away"] ∧
      Admits oneOfFourScope (Listing.ofLines oneOfFour).parsed.toList p report := by
  have hfacts : (link oneOfFourScope (Listing.ofLines oneOfFour).parsed.toList).2.toList.map
        (fun m => (m.text, m.position.map Position.line)) =
        [("Register &r16 does not exist, register count is 16", some 2),
          ("Address 300 is outside of memory, memory size is 256", some 4),
          ("Undefined label `away`", some 5)] ∧
      (link oneOfFourScope (Listing.ofLines oneOfFour).parsed.toList).1.rom =
        [⟨.ldi, 1, 255⟩] ∧
      (link oneOfFourScope (Listing.ofLines oneOfFour).parsed.toList).1.lines =
        ["mov &r1, -1"] ∧
      (link oneOfFourScope (Listing.ofLines oneOfFour).parsed.toList).1.listing =
        ["mov &r1, -1 // all bits", "mov &r16, 300", "loop:", "mov $300, &r1", "jmp away"] := by
    decide +kernel
  obtain ⟨hreport, hrom, hlines, hlisting⟩ := hfacts
  exact ⟨_, _, rfl, hreport, hrom, hlines, hlisting,
    link_admits (Options.validate_eq_ok_iff.1 (by decide)) _ _ _⟩

end Program

end MacroAsm
