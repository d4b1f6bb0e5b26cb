import MacroAsm.Program.Listing

set_option autoImplicit false

/-! # Slots

Every invariant of a listing is proved once per kind of line (`Listing.extend_induction`). The one
about slots says that the instructions read so far have the slots `0, 1, …` up to the next free one,
and that no label stands behind it (`Listing.Numbered`). There are few enough slots that none loses
digits when it becomes a word. -/

namespace MacroAsm

/-- The instruction of a parsed line, with its slot. -/
def ParsedLine.instruction? (p : ParsedLine) : Option (Instruction × Option UInt16) :=
  match p.statement with
  | some (.instruction i) => some (i, p.slot)
  | _ => none

namespace Listing

/-- What holds of a listing and of each listing with one more line holds when all lines are read. -/
theorem extend_induction {P : Listing → Prop} {s : Listing} {lines : List Line} (hs : P s)
    (message : ∀ s m, P s → P (s.addMessage m))
    (nothing : ∀ s, ∀ l ∈ lines, P s → P (s.addLine l none))
    (label : ∀ s, ∀ l ∈ lines, ∀ name, Statement.parse l.code = .ok (some (.label name)) → P s →
      P ((s.addLabel l name).addLine l (some (.label name))))
    (instruction : ∀ s, ∀ l ∈ lines, ∀ i, Statement.parse l.code = .ok (some (.instruction i)) →
      s.next < romCapacity → P s → P (s.addInstruction l i)) : P (s.extend lines) := by
  induction lines generalizing s with
  | nil => exact hs
  | cons l rest ih =>
    have hrest {s' : Listing} (hs' : P s') : P (s'.extend rest) :=
      ih hs' (fun s k hk => nothing s k (List.mem_cons_of_mem l hk))
        (fun s k hk => label s k (List.mem_cons_of_mem l hk))
        (fun s k hk => instruction s k (List.mem_cons_of_mem l hk))
    unfold extend
    split
    · exact hrest (nothing _ l List.mem_cons_self (message s _ hs))
    · exact hrest (nothing s l List.mem_cons_self hs)
    · next name hl => exact hrest (label s l List.mem_cons_self name hl hs)
    · next i hl =>
      split
      · exact message s _ hs
      · next hnext => exact hrest (instruction s l List.mem_cons_self i hl (by omega) hs)

/-! ## Numbering -/

/-- The instructions of a listing, with their slots. -/
def instructions (s : Listing) : List (Instruction × Option UInt16) :=
  s.parsed.toList.filterMap ParsedLine.instruction?

theorem instructions_addLine (s : Listing) (l : Line) {statement : Option Statement}
    (h : (ParsedLine.mk l statement none).instruction? = none) :
    (s.addLine l statement).instructions = s.instructions := by
  unfold instructions addLine
  rw [Array.toList_push, List.filterMap_append, List.filterMap_cons_none h, List.filterMap_nil,
    List.append_nil]

theorem instructions_addInstruction (s : Listing) (l : Line) (i : Instruction) :
    (s.addInstruction l i).instructions = s.instructions ++ [(i, some (UInt16.ofNat s.next))] := by
  unfold instructions addInstruction
  rw [Array.toList_push, List.filterMap_append]
  rfl

/-- A label adds nothing but itself, whether it was defined before or not. -/
theorem addLabel_eq (s : Listing) (l : Line) (name : String) :
    ∃ report, s.addLabel l name =
      { s with labels := s.labels.insert name (UInt16.ofNat s.next, l.position), report } := by
  unfold addLabel
  split
  · exact ⟨_, rfl⟩
  · exact ⟨_, rfl⟩

/-- The instructions have the slots from zero up to the next one, and labels have no slot beyond. -/
structure Numbered (s : Listing) : Prop where
  slots : s.instructions.map (fun x => x.2.map UInt16.toNat) = (List.range s.next).map some
  next_le : s.next ≤ romCapacity
  label_le : ∀ {name slot}, s.labels.slot? name = some slot → slot.toNat ≤ s.next

variable {s : Listing}

theorem toNat_ofNat_of_le_romCapacity {n : Nat} (h : n ≤ romCapacity) :
    (UInt16.ofNat n).toNat = n := by
  unfold romCapacity at h
  rw [UInt16.toNat_ofNat']
  omega

theorem numbered_empty : empty.Numbered :=
  ⟨rfl, Nat.zero_le _, by simp [empty, Labels.slot?]⟩

theorem Numbered.addMessage (hs : s.Numbered) (m : Message) : (s.addMessage m).Numbered :=
  ⟨hs.slots, hs.next_le, hs.label_le⟩

theorem Numbered.addNothing (hs : s.Numbered) (l : Line) : (s.addLine l none).Numbered := by
  refine ⟨?_, hs.next_le, hs.label_le⟩
  rw [instructions_addLine s l rfl]
  exact hs.slots

theorem Numbered.addLabel (hs : s.Numbered) (l : Line) (name : String) :
    ((s.addLabel l name).addLine l (some (.label name))).Numbered := by
  obtain ⟨report, heq⟩ := s.addLabel_eq l name
  rw [heq]
  refine ⟨?_, hs.next_le, fun {other slot} h => ?_⟩
  · rw [instructions_addLine _ l rfl]
    exact hs.slots
  · simp only [addLine, Labels.slot?, Registry.find?_insert] at h
    split at h
    · -- the label stands for the next slot, which may be the one behind the last
      obtain rfl := Option.some.inj h
      exact Nat.le_of_eq (toNat_ofNat_of_le_romCapacity hs.next_le)
    · exact hs.label_le h

theorem Numbered.addInstruction (hs : s.Numbered) (l : Line) (i : Instruction)
    (hnext : s.next < romCapacity) : (s.addInstruction l i).Numbered := by
  refine ⟨?_, hnext, fun h => Nat.le_succ_of_le (hs.label_le h)⟩
  have hslot : (UInt16.ofNat s.next).toNat = s.next :=
    toNat_ofNat_of_le_romCapacity hs.next_le
  have hrange : List.range (s.addInstruction l i).next = List.range s.next ++ [s.next] :=
    List.range_succ
  rw [instructions_addInstruction, List.map_append, hs.slots, hrange, List.map_append]
  simp only [List.map_cons, List.map_nil, Option.map_some, hslot]

/-- All lines keep the numbering. -/
theorem numbered_ofLines (lines : List Line) : (ofLines lines).Numbered :=
  extend_induction numbered_empty (fun _ m hs => hs.addMessage m) (fun _ l _ hs => hs.addNothing l)
    (fun _ l _ name _ hs => hs.addLabel l name)
    (fun _ l _ i _ hnext hs => hs.addInstruction l i hnext)

end Listing

end MacroAsm
