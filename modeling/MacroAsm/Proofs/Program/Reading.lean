import MacroAsm.Proofs.Compilation.Stages
import MacroAsm.Proofs.Program.Slots

set_option autoImplicit false

/-! # What a listing is made of

A listing without errors holds all lines, each with what it says, and everything else in it depends
on the statements alone: the number of instructions, and for each label the number of instructions
before its last definition (`Listing.Reads`). There is no error exactly when all lines can be read and
the instructions fit the program memory. -/

namespace MacroAsm

/-- What a line says, if it can be read. -/
def Line.statement? (l : Line) : Option Statement :=
  match Statement.parse l.code with
  | .ok s => s
  | .error _ => none

/-- The statements of some lines, in order. -/
def statementsOf (lines : List Line) : List Statement :=
  lines.filterMap Line.statement?

namespace Statement

/-- How many of some statements are instructions. -/
def instructionCount : List Statement → Nat
  | [] => 0
  | .label _ :: rest => instructionCount rest
  | .instruction _ :: rest => instructionCount rest + 1

/-- The slot that some statements give to a label, the first of them standing at a slot; the last
    definition counts. -/
def slotOf? (name : String) (slot : Nat) : List Statement → Option Nat
  | [] => none
  | .label other :: rest =>
    (slotOf? name slot rest).or (if name = other then some slot else none)
  | .instruction _ :: rest => slotOf? name (slot + 1) rest

theorem instructionCount_append (xs ys : List Statement) :
    instructionCount (xs ++ ys) = instructionCount xs + instructionCount ys := by
  induction xs with
  | nil => simp [instructionCount]
  | cons x xs ih =>
    cases x with
    | label => simpa [instructionCount] using ih
    | instruction => simp [instructionCount, ih]; omega

theorem slotOf?_append (name : String) (slot : Nat) (xs ys : List Statement) :
    slotOf? name slot (xs ++ ys) =
      (slotOf? name (slot + instructionCount xs) ys).or (slotOf? name slot xs) := by
  induction xs generalizing slot with
  | nil => simp [slotOf?, instructionCount]
  | cons x xs ih =>
    cases x with
    | label => simp [slotOf?, instructionCount, ih, Option.or_assoc]
    | instruction =>
      rw [List.cons_append, slotOf?, ih, instructionCount, slotOf?, Nat.add_right_comm,
        Nat.add_assoc]

end Statement

open Statement (instructionCount instructionCount_append slotOf? slotOf?_append)

namespace Listing

/-- Lines that can be read and whose instructions fit behind those of a listing. -/
structure Fits (s : Listing) (lines : List Line) : Prop where
  readable : ∀ l ∈ lines, Statement.parse l.code = .ok l.statement?
  count_le : s.next + instructionCount (statementsOf lines) ≤ romCapacity

/-- What becomes of a listing when it reads lines without an error. -/
structure Reads (s : Listing) (lines : List Line) (s' : Listing) : Prop where
  parsed : s'.parsed.toList.map (fun p => (p.line, p.statement)) =
    s.parsed.toList.map (fun p => (p.line, p.statement)) ++ lines.map fun l => (l, l.statement?)
  next : s'.next = s.next + instructionCount (statementsOf lines)
  label : ∀ name, s'.labels.slot? name =
    ((slotOf? name s.next (statementsOf lines)).map UInt16.ofNat).or (s.labels.slot? name)
  report : s'.report.hasError = s.report.hasError

variable {s s' s'' : Listing}

theorem statement?_of_parse {l : Line} {s? : Option Statement}
    (h : Statement.parse l.code = .ok s?) : l.statement? = s? := by
  simp only [Line.statement?, h]

/-! ## Messages -/

theorem hasError_addMessage (s : Listing) (m : Message) :
    (s.addMessage m).report.hasError = (s.report.hasError || m.severity == .error) :=
  s.report.hasError_push m

theorem severity_foldl_withNote {α : Type} (xs : List α) (text : α → String) (m : Message) :
    (xs.foldl (fun m x => m.withNote (text x) none) m).severity = m.severity := by
  induction xs generalizing m with
  | nil => rfl
  | cons x xs ih => exact ih _

theorem severity_unreadableMessage (l : Line) (e : StatementError) :
    (unreadableMessage l e).severity = .error :=
  severity_foldl_withNote _ _ _

/-- A label that is defined again is no error. -/
theorem hasError_addLabel (s : Listing) (l : Line) (name : String) :
    (s.addLabel l name).report.hasError = s.report.hasError := by
  unfold addLabel
  split
  · show (s.addMessage _).report.hasError = s.report.hasError
    rw [hasError_addMessage]
    exact Bool.or_false _
  · rfl

/-! ## One line after the other -/

theorem statementsOf_append (xs ys : List Line) :
    statementsOf (xs ++ ys) = statementsOf xs ++ statementsOf ys :=
  List.filterMap_append

theorem Reads.trans {xs ys : List Line} (h : s.Reads xs s') (h' : s'.Reads ys s'') :
    s.Reads (xs ++ ys) s'' where
  parsed := by rw [h'.parsed, h.parsed, List.map_append, List.append_assoc]
  next := by rw [h'.next, h.next, statementsOf_append, instructionCount_append, Nat.add_assoc]
  label name := by
    rw [h'.label, h.label, h.next, statementsOf_append, slotOf?_append, Option.map_or,
      Option.or_assoc]
  report := h'.report.trans h.report

theorem fits_cons_iff {l : Line} {rest : List Line} (h : s.Reads [l] s') :
    s.Fits (l :: rest) ↔ Statement.parse l.code = .ok l.statement? ∧ s'.Fits rest := by
  have hcount : s.next + instructionCount (statementsOf (l :: rest)) =
      s'.next + instructionCount (statementsOf rest) := by
    rw [h.next, ← List.singleton_append, statementsOf_append, instructionCount_append,
      Nat.add_assoc]
  constructor
  · intro hfits
    exact ⟨hfits.readable l List.mem_cons_self,
      fun k hk => hfits.readable k (List.mem_cons_of_mem l hk), hcount ▸ hfits.count_le⟩
  · rintro ⟨hl, hfits⟩
    exact ⟨List.forall_mem_cons.2 ⟨hl, hfits.readable⟩, hcount ▸ hfits.count_le⟩

section Lines

variable (s) {l : Line}

theorem reads_addLine (h : l.statement? = none) : s.Reads [l] (s.addLine l none) where
  parsed := by simp [addLine, h]
  next := by simp [addLine, statementsOf, instructionCount, h]
  label _ := by simp [addLine, statementsOf, slotOf?, h]
  report := rfl

theorem reads_addLabel {name : String} (h : l.statement? = some (.label name)) :
    s.Reads [l] ((s.addLabel l name).addLine l (some (.label name))) := by
  obtain ⟨report, hadd⟩ := s.addLabel_eq l name
  refine ⟨?_, ?_, fun other => ?_, s.hasError_addLabel l name⟩
  · simp [hadd, addLine, h]
  · simp [hadd, addLine, statementsOf, instructionCount, h]
  · -- the new definition counts, then those before it
    by_cases hother : other = name
    · simp [hadd, addLine, Labels.slot?, Registry.find?_insert, statementsOf, slotOf?, h, hother]
    · simp [hadd, addLine, Labels.slot?, Registry.find?_insert, statementsOf, slotOf?, h, hother]

theorem reads_addInstruction {i : Instruction} (h : l.statement? = some (.instruction i)) :
    s.Reads [l] (s.addInstruction l i) where
  parsed := by simp [addInstruction, h]
  next := by simp [addInstruction, statementsOf, instructionCount, h]
  label _ := by simp [addInstruction, statementsOf, slotOf?, h]
  report := rfl

end Lines

/-! ## Lines without errors -/

/-- Without an error all lines can be read, and the instructions fit. -/
theorem fits_of_extend {lines : List Line} (hnext : s.next ≤ romCapacity)
    (h : (s.extend lines).report.hasError = false) :
    s.Fits lines ∧ s.report.hasError = false := by
  -- a line that is read leaves it to the rest whether there is an error
  have hread {s s' : Listing} {l : Line} {rest : List Line} {s? : Option Statement}
      (hl : Statement.parse l.code = .ok s?) (hline : s.Reads [l] s')
      (hrest : s'.Fits rest ∧ s'.report.hasError = false) :
      s.Fits (l :: rest) ∧ s.report.hasError = false :=
    ⟨(fits_cons_iff hline).2 ⟨by rw [statement?_of_parse hl, hl], hrest.1⟩,
      hline.report ▸ hrest.2⟩
  induction lines generalizing s with
  | nil => exact ⟨⟨by simp, hnext⟩, h⟩
  | cons l rest ih =>
    unfold extend at h
    split at h
    · next e _ =>
      -- an error stays in the report
      obtain ⟨-, herror⟩ := ih (by exact hnext) h
      have hmessage := hasError_addMessage s (unreadableMessage l e)
      rw [severity_unreadableMessage] at hmessage
      have htrue : (s.addMessage (unreadableMessage l e)).report.hasError = true := by
        rw [hmessage]
        exact Bool.or_true _
      exact absurd (htrue.symm.trans herror) (by decide)
    · next hl => exact hread hl (s.reads_addLine (statement?_of_parse hl)) (ih (by exact hnext) h)
    · next name hl =>
      obtain ⟨report, hadd⟩ := s.addLabel_eq l name
      exact hread hl (s.reads_addLabel (statement?_of_parse hl)) (ih (by rw [hadd]; exact hnext) h)
    · next i hl =>
      split at h
      · -- reading ends here, with an error
        rw [hasError_addMessage] at h
        have htrue : (s.report.hasError || (fullMessage l).severity == .error) = true :=
          Bool.or_true _
        exact absurd (htrue.symm.trans h) (by decide)
      · next hfull =>
        have hlt : s.next + 1 ≤ romCapacity := by omega
        exact hread hl (s.reads_addInstruction (statement?_of_parse hl)) (ih (by exact hlt) h)

/-- Lines that fit are read without an error. -/
theorem extend_reads {lines : List Line} (h : s.Fits lines) : s.Reads lines (s.extend lines) := by
  induction lines generalizing s with
  | nil => exact ⟨by simp [extend], rfl, fun _ => by simp [extend, statementsOf, slotOf?], rfl⟩
  | cons l rest ih =>
    have hl := h.readable l List.mem_cons_self
    have hread {s' : Listing} (hline : s.Reads [l] s') : s.Reads (l :: rest) (s'.extend rest) :=
      hline.trans (ih ((fits_cons_iff hline).1 h).2)
    unfold extend
    cases hs : l.statement? with
    | none =>
      rw [hs] at hl
      rw [hl]
      exact hread (s.reads_addLine hs)
    | some st =>
      rw [hs] at hl
      cases st with
      | label name =>
        rw [hl]
        exact hread (s.reads_addLabel hs)
      | instruction i =>
        have hline := s.reads_addInstruction hs
        have hfull : ¬ romCapacity ≤ s.next := by
          have hcount := ((fits_cons_iff hline).1 h).2.count_le
          simp only [addInstruction] at hcount
          omega
        simp only [hl, if_neg hfull]
        exact hread hline

/-- What is made of each line of a listing is made of the lines that were read. -/
theorem Reads.filterMap_eq {lines : List Line} (h : empty.Reads lines s) {β : Type}
    (f : Line → Option Statement → Option β) :
    (s.parsed.toList.filterMap fun p => f p.line p.statement) =
      lines.filterMap fun l => f l l.statement? := by
  have hparsed := congrArg (List.filterMap fun x => f x.1 x.2) h.parsed
  rw [List.filterMap_append, List.filterMap_map, List.filterMap_map, List.filterMap_map] at hparsed
  exact hparsed

/-- Each line of a listing is one that was read, with what it says. -/
theorem Reads.of_mem {lines : List Line} (h : empty.Reads lines s) {p : ParsedLine}
    (hp : p ∈ s.parsed.toList) : p.line ∈ lines ∧ p.statement = p.line.statement? := by
  have hmem : (p.line, p.statement) ∈ s.parsed.toList.map fun p => (p.line, p.statement) :=
    List.mem_map_of_mem hp
  rw [h.parsed] at hmem
  rcases List.mem_append.1 hmem with hmem | hmem
  · exact absurd hmem List.not_mem_nil
  · obtain ⟨l, hl, heq⟩ := List.mem_map.1 hmem
    obtain ⟨rfl, hs⟩ := Prod.mk.inj heq
    exact ⟨hl, hs.symm⟩

/-- A listing without errors holds all lines with their statements. -/
theorem ofLines_reads {lines : List Line} (h : (ofLines lines).report.hasError = false) :
    empty.Fits lines ∧ empty.Reads lines (ofLines lines) := by
  obtain ⟨hfits, -⟩ := fits_of_extend (s := empty) (Nat.zero_le _) h
  exact ⟨hfits, extend_reads hfits⟩

end Listing

end MacroAsm
