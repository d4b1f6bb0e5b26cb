import MacroAsm.Proofs.Program.Reading

set_option autoImplicit false

/-! # Labelling

Whatever lines are read, up to the first instruction for which there is no slot each of them is
listed, the instructions have the slots from zero up, a label stands for the number of instructions in
front of its last definition, and the report says of each line what is wrong with it
(`Listing.ofLines_labelled`). What one line adds is said once (`Listing.Adds`), and a listing that is
right for some lines is right for one line more (`Listing.Labelled.concat`). -/

namespace MacroAsm

/-- What each element of a list gives, told from the elements in front of it. -/
def eachBehind {α β : Type} (f : List α → α → List β) (before : List α) : List α → List β
  | [] => []
  | a :: rest => f before a ++ eachBehind f (before ++ [a]) rest

theorem eachBehind_concat {α β : Type} (f : List α → α → List β) (before as : List α) (a : α) :
    eachBehind f before (as ++ [a]) = eachBehind f before as ++ f (before ++ as) a := by
  induction as generalizing before with
  | nil => simp [eachBehind]
  | cons b as ih =>
    rw [List.cons_append, eachBehind, eachBehind, ih, List.append_assoc, List.append_assoc]
    rfl

/-- What is made of the results is made of the results of each element. -/
theorem map_filter_eachBehind {α β γ : Type} (f : List α → α → List β) (p : β → Bool) (g : β → γ)
    (before as : List α) :
    ((eachBehind f before as).filter p).map g =
      eachBehind (fun before a => ((f before a).filter p).map g) before as := by
  induction as generalizing before with
  | nil => rfl
  | cons a as ih => rw [eachBehind, eachBehind, List.filter_append, List.map_append, ih]

theorem map_eachBehind {α β γ : Type} (f : List α → α → List β) (g : β → γ) (before as : List α) :
    (eachBehind f before as).map g =
      eachBehind (fun before a => (f before a).map g) before as := by
  induction as generalizing before with
  | nil => rfl
  | cons a as ih => rw [eachBehind, eachBehind, List.map_append, ih]

/-- What does not depend on the elements in front is given by those that give something. -/
theorem eachBehind_ite {α β : Type} (p : α → Bool) (g : α → β) (before as : List α) :
    eachBehind (fun _ a => if p a then [g a] else []) before as = (as.filter p).map g := by
  induction as generalizing before with
  | nil => rfl
  | cons a as ih =>
    rw [eachBehind, ih, List.filter_cons]
    cases p a <;> rfl

/-! ## What lines say -/

namespace Line

/-- Whether a line is an instruction. -/
def isInstruction (l : Line) : Bool :=
  match l.statement? with
  | some (.instruction _) => true
  | _ => false

/-- The name that a line defines. -/
def label? (l : Line) : Option String :=
  match l.statement? with
  | some (.label name) => some name
  | _ => none

/-- Whether a line is no statement. -/
def isUnreadable (l : Line) : Bool :=
  !(Statement.parse l.code).isOk

end Line

namespace Listing

/-- How many lines are instructions. -/
def instructionLines (lines : List Line) : Nat :=
  lines.countP Line.isInstruction

/-- The last of some lines that define a name. -/
def lastDefinition? (name : String) (lines : List Line) : Option Line :=
  lines.reverse.find? fun l => l.label? == some name

/-- A line that defines a name again, with the definition before. -/
def redefinition? (before : List Line) (l : Line) : Option (Line × Line) :=
  l.label?.bind fun name => (lastDefinition? name before).map fun k => (l, k)

/-- What is reported about a line that stands behind others. -/
def lineMessages (before : List Line) (l : Line) : List Message :=
  match Statement.parse l.code with
  | .error e => [unreadableMessage l e]
  | .ok (some (.label name)) =>
    (lastDefinition? name before).toList.map fun k => redefinedMessage l name k.position
  | .ok _ => []

/-- Lines are cut in front of the first instruction for which there is no slot. -/
structure CutOff (lines kept rest : List Line) : Prop where
  eq_append : lines = kept ++ rest
  count_le : instructionLines kept ≤ romCapacity
  full : ∀ l ∈ rest.head?, l.isInstruction = true ∧ instructionLines kept = romCapacity

/-- A listing holds some lines and what they define, and has reported what is wrong with them and, if
    there is one, with the instruction for which there is no slot. -/
structure Labelled (kept : List Line) (full? : Option Line) (s : Listing) : Prop where
  lines : s.parsed.toList.map ParsedLine.line = kept
  statements : s.parsed.toList.map ParsedLine.statement = kept.map Line.statement?
  slot_isSome : ∀ p ∈ s.parsed.toList, p.slot.isSome = p.line.isInstruction
  slots : (s.parsed.toList.filterMap ParsedLine.slot).map UInt16.toNat =
    List.range (instructionLines kept)
  next : s.next = instructionLines kept
  label : ∀ {before after : List Line} {l : Line} {name : String}, kept = before ++ l :: after →
    l.label? = some name → (∀ k ∈ after, k.label? ≠ some name) →
    ∃ slot, s.labels.find? name = some (slot, l.position) ∧ slot.toNat = instructionLines before
  label_none : ∀ {name : String}, (∀ k ∈ kept, k.label? ≠ some name) →
    s.labels.find? name = none
  report : s.report.toList = eachBehind lineMessages [] kept ++ full?.toList.map fullMessage

/-- There is one such cut. -/
theorem CutOff.kept_eq {lines kept kept' rest rest' : List Line} (h : CutOff lines kept rest)
    (h' : CutOff lines kept' rest') : kept' = kept := by
  -- what one cut keeps and the other does not begins with an instruction for which there is no slot
  have hle {kept rest more rest' : List Line} (h : CutOff lines kept rest)
      (h' : CutOff lines (kept ++ more) rest') (hrest : rest = more ++ rest') : more = [] := by
    cases more with
    | nil => rfl
    | cons l more =>
      obtain ⟨hl, hcount⟩ := h.full l (by simp [hrest])
      have hmore := h'.count_le
      simp only [instructionLines, List.countP_append, List.countP_cons, hl, if_pos] at hcount hmore
      omega
  have happend := h.eq_append.symm.trans h'.eq_append
  rcases List.append_eq_append_iff.1 happend with ⟨more, rfl, hrest⟩ | ⟨more, rfl, hrest⟩
  · rw [hle h h' hrest, List.append_nil]
  · rw [hle h' h hrest, List.append_nil]

variable {s s' : Listing} {kept : List Line} {l : Line}

theorem lastDefinition?_eq_some {name : String} {lines : List Line}
    (h : lastDefinition? name lines = some l) :
    ∃ before after, lines = before ++ l :: after ∧ l.label? = some name ∧
      ∀ k ∈ after, k.label? ≠ some name := by
  obtain ⟨hl, after, before, heq, hafter⟩ := List.find?_eq_some_iff_append.1 h
  refine ⟨before.reverse, after.reverse, ?_, by simpa using hl, fun k hk => ?_⟩
  · rw [← List.reverse_reverse lines, heq]
    simp
  · simpa using hafter k (List.mem_reverse.1 hk)

theorem lastDefinition?_eq_none {name : String} {lines : List Line}
    (h : lastDefinition? name lines = none) {k : Line} (hk : k ∈ lines) :
    k.label? ≠ some name := by
  simpa using List.find?_eq_none.1 h k (List.mem_reverse.2 hk)

/-- Names are entered with the places of their last definitions. -/
theorem Labelled.find?_labels {full? : Option Line} (h : s.Labelled kept full?) (name : String) :
    (s.labels.find? name).map Prod.snd = (lastDefinition? name kept).map Line.position := by
  cases hlast : lastDefinition? name kept with
  | none =>
    rw [h.label_none fun k hk => lastDefinition?_eq_none hlast hk]
    rfl
  | some l =>
    obtain ⟨before, after, heq, hl, hafter⟩ := lastDefinition?_eq_some hlast
    obtain ⟨slot, hfind, -⟩ := h.label heq hl hafter
    rw [hfind]
    rfl

/-! ## Messages -/

theorem position_foldl_withNote {α : Type} (xs : List α) (text : α → String) (m : Message) :
    (xs.foldl (fun m x => m.withNote (text x) none) m).position = m.position := by
  induction xs generalizing m with
  | nil => rfl
  | cons x xs ih => exact ih _

theorem position_unreadableMessage (l : Line) (e : StatementError) :
    (unreadableMessage l e).position = some l.position :=
  position_foldl_withNote _ _ _

/-- There is an error about a line exactly when it is no statement. -/
theorem errors_lineMessages (before : List Line) (l : Line) :
    ((lineMessages before l).filter (·.severity == .error)).map Message.position =
      if l.isUnreadable then [some l.position] else [] := by
  unfold lineMessages Line.isUnreadable
  split
  · next e hparse =>
    have hseverity : ((unreadableMessage l e).severity == .error) = true := by
      rw [severity_unreadableMessage]
      rfl
    simp [hparse, Except.isOk, Except.toBool, hseverity, position_unreadableMessage]
  · next name hparse =>
    cases lastDefinition? name before <;>
      simp [hparse, Except.isOk, Except.toBool, redefinedMessage, Message.withNote, Message.about]
  · next s? _ hparse => simp [hparse, Except.isOk, Except.toBool]

/-- There is a warning about a line exactly when it defines a name again, with a note at the
    definition before. -/
theorem warnings_lineMessages (before : List Line) (l : Line) :
    ((lineMessages before l).filter (·.severity == .warning)).map
        (fun m => (m.position, m.notes.map Note.position)) =
      (redefinition? before l).toList.map
        fun x => (some x.1.position, [some x.2.position]) := by
  unfold lineMessages redefinition? Line.label?
  split
  · next e hparse =>
    have hseverity : ((unreadableMessage l e).severity == .warning) = false := by
      rw [severity_unreadableMessage]
      rfl
    simp [hseverity, Line.statement?, hparse]
  · next name hparse =>
    rw [statement?_of_parse hparse]
    cases hlast : lastDefinition? name before <;>
      simp [hlast, redefinedMessage, Message.withNote, Message.about]
  · next s? hother hparse =>
    rw [statement?_of_parse hparse]
    cases s? with
    | none => rfl
    | some s =>
      cases s with
      | instruction i => rfl
      | label name => exact absurd rfl (hother name)

/-! ## One line more -/

/-- What a line adds to a listing of others. -/
structure Adds (before : List Line) (s : Listing) (l : Line) (s' : Listing) : Prop where
  parsed : s'.parsed = s.parsed.push
    ⟨l, l.statement?, if l.isInstruction then some (UInt16.ofNat s.next) else none⟩
  next : s'.next = s.next + if l.isInstruction then 1 else 0
  label : ∀ name, s'.labels.find? name =
    if l.label? = some name then some (UInt16.ofNat s.next, l.position) else s.labels.find? name
  report : s'.report.toList = s.report.toList ++ lineMessages before l

theorem instructionLines_concat (lines : List Line) (l : Line) :
    instructionLines (lines ++ [l]) =
      instructionLines lines + if l.isInstruction then 1 else 0 := by
  rw [instructionLines, List.countP_append, List.countP_singleton]
  rfl

/-- A listing that is right for some lines is right for one more. -/
theorem Labelled.concat (h : s.Labelled kept none) (hroom : instructionLines kept ≤ romCapacity)
    (hadds : Adds kept s l s') : s'.Labelled (kept ++ [l]) none := by
  have hnext : (UInt16.ofNat s.next).toNat = instructionLines kept := by
    rw [h.next]
    exact toNat_ofNat_of_le_romCapacity hroom
  have hparsed := hadds.parsed
  constructor
  · rw [hparsed, Array.toList_push, List.map_append, h.lines]
    rfl
  · rw [hparsed, Array.toList_push, List.map_append, List.map_append, h.statements]
    rfl
  · intro p hp
    rw [hparsed, Array.toList_push, List.mem_append, List.mem_singleton] at hp
    rcases hp with hp | rfl
    · exact h.slot_isSome p hp
    · cases l.isInstruction <;> rfl
  · rw [hparsed, Array.toList_push, List.filterMap_append, List.map_append, h.slots,
      instructionLines_concat]
    cases hl : l.isInstruction with
    | false => simp
    | true => simp [List.range_succ, hnext]
  · rw [hadds.next, h.next, instructionLines_concat]
  · intro before after k name heq hk hafter
    rw [hadds.label]
    rcases List.eq_nil_or_concat after with rfl | ⟨after', k', rfl⟩
    · -- the new line is the last definition
      obtain ⟨rfl, hlast⟩ := List.append_inj' heq rfl
      obtain rfl := List.head_eq_of_cons_eq hlast
      exact ⟨_, if_pos hk, hnext⟩
    · rw [List.concat_eq_append] at heq hafter
      rw [← List.cons_append, ← List.append_assoc] at heq
      obtain ⟨rfl, hlast⟩ := List.append_inj' heq rfl
      obtain rfl := List.head_eq_of_cons_eq hlast
      rw [if_neg (hafter l (by simp))]
      exact h.label rfl hk fun k' hk' => hafter k' (by simp [hk'])
  · intro name hnone
    rw [hadds.label, if_neg (hnone l (by simp))]
    exact h.label_none fun k hk => hnone k (by simp [hk])
  · rw [hadds.report, h.report, eachBehind_concat]
    simp

/-- What is reported about a label is told by the labels entered before. -/
theorem report_addLabel (h : s.Labelled kept none) (l : Line) (name : String) :
    (s.addLabel l name).report.toList = s.report.toList ++
      (lastDefinition? name kept).toList.map fun k => redefinedMessage l name k.position := by
  have hplace := h.find?_labels name
  unfold addLabel
  cases hfind : s.labels.find? name with
  | none =>
    rw [hfind] at hplace
    rw [Option.map_eq_none_iff.1 hplace.symm]
    simp
  | some x =>
    obtain ⟨slot, previous⟩ := x
    rw [hfind] at hplace
    obtain ⟨k, hk, rfl⟩ := Option.map_eq_some_iff.1 hplace.symm
    rw [hk]
    exact Report.toList_push _ _

theorem adds_unreadable (s : Listing) (before : List Line) {l : Line} {e : StatementError}
    (hparse : Statement.parse l.code = .error e) :
    Adds before s l ((s.addMessage (unreadableMessage l e)).addLine l none) := by
  have hs : l.statement? = none := by simp only [Line.statement?, hparse]
  constructor
  · simp [addLine, addMessage, Line.isInstruction, hs]
  · simp [addLine, addMessage, Line.isInstruction, hs]
  · intro name
    simp [addLine, addMessage, Line.label?, hs]
  · simp [addLine, addMessage, lineMessages, hparse]

theorem adds_nothing (s : Listing) (before : List Line) {l : Line}
    (hparse : Statement.parse l.code = .ok none) : Adds before s l (s.addLine l none) := by
  have hs := statement?_of_parse hparse
  constructor
  · simp [addLine, Line.isInstruction, hs]
  · simp [addLine, Line.isInstruction, hs]
  · intro name
    simp [addLine, Line.label?, hs]
  · simp [addLine, lineMessages, hparse]

theorem adds_label (h : s.Labelled kept none) {l : Line} {name : String}
    (hparse : Statement.parse l.code = .ok (some (.label name))) :
    Adds kept s l ((s.addLabel l name).addLine l (some (.label name))) := by
  have hs := statement?_of_parse hparse
  have hreport := report_addLabel h l name
  obtain ⟨report, heq⟩ := s.addLabel_eq l name
  rw [heq] at hreport ⊢
  constructor
  · simp [addLine, Line.isInstruction, hs]
  · simp [addLine, Line.isInstruction, hs]
  · intro other
    simp [addLine, Line.label?, hs, Registry.find?_insert, eq_comm]
  · simpa [addLine, lineMessages, hparse] using hreport

theorem adds_instruction (s : Listing) (before : List Line) {l : Line} {i : Instruction}
    (hparse : Statement.parse l.code = .ok (some (.instruction i))) :
    Adds before s l (s.addInstruction l i) := by
  have hs := statement?_of_parse hparse
  constructor
  · simp [addInstruction, Line.isInstruction, hs]
  · simp [addInstruction, Line.isInstruction, hs]
  · intro name
    simp [addInstruction, Line.label?, hs]
  · simp [addInstruction, lineMessages, hparse]

/-! ## All lines -/

/-- The lines read are those in front of the cut. -/
theorem extend_labelled (lines : List Line) (h : s.Labelled kept none)
    (hroom : instructionLines kept ≤ romCapacity) :
    ∃ more rest, CutOff (kept ++ lines) (kept ++ more) rest ∧
      (s.extend lines).Labelled (kept ++ more) rest.head? := by
  induction lines generalizing s kept with
  | nil =>
    refine ⟨[], [], ⟨by simp, by simpa using hroom, by simp⟩, ?_⟩
    rw [List.append_nil]
    exact h
  | cons l lines ih =>
    -- a line that is read stands in front of the cut
    have hread (s' : Listing) (hadds : Adds kept s l s')
        (hroom' : instructionLines (kept ++ [l]) ≤ romCapacity) :
        ∃ more rest, CutOff (kept ++ l :: lines) (kept ++ more) rest ∧
          (s'.extend lines).Labelled (kept ++ more) rest.head? := by
      obtain ⟨more, rest, hcut, hlabelled⟩ := ih (h.concat hroom hadds) hroom'
      rw [List.append_assoc, List.append_assoc] at hcut
      rw [List.append_assoc] at hlabelled
      exact ⟨l :: more, rest, hcut, hlabelled⟩
    have hother (hl : l.isInstruction = false) : instructionLines (kept ++ [l]) ≤ romCapacity := by
      rw [instructionLines_concat, hl]
      exact hroom
    unfold extend
    split
    · next e hparse =>
      refine hread _ (adds_unreadable s kept hparse) (hother ?_)
      simp only [Line.isInstruction, Line.statement?, hparse]
    · next hparse =>
      refine hread _ (adds_nothing s kept hparse) (hother ?_)
      simp only [Line.isInstruction, statement?_of_parse hparse]
    · next name hparse =>
      refine hread _ (adds_label h hparse) (hother ?_)
      simp only [Line.isInstruction, statement?_of_parse hparse]
    · next i hparse =>
      have hinstruction : l.isInstruction = true := by
        simp only [Line.isInstruction, statement?_of_parse hparse]
      split
      · next hfull =>
        rw [h.next] at hfull
        refine ⟨[], l :: lines, ⟨by simp, by simpa using hroom, ?_⟩, ?_⟩
        · simpa [hinstruction] using Nat.le_antisymm hroom hfull
        · rw [List.append_nil]
          refine ⟨h.lines, h.statements, h.slot_isSome, h.slots, h.next, h.label, h.label_none, ?_⟩
          simp [addMessage, h.report]
      · next hfree =>
        refine hread _ (adds_instruction s kept hparse) ?_
        rw [h.next] at hfree
        rw [instructionLines_concat, hinstruction]
        exact Nat.lt_of_not_le hfree

theorem labelled_empty : empty.Labelled [] none := by
  constructor <;> simp [empty, instructionLines, eachBehind]

/-- How some lines are listed, up to the first instruction for which there is no slot. -/
structure ListedUpTo (lines kept rest : List Line) : Prop where
  cutOff : CutOff lines kept rest
  /-- The lines are cut off in one place only. -/
  unique : ∀ {kept' rest' : List Line}, CutOff lines kept' rest' → kept' = kept
  labelled : (ofLines lines).Labelled kept rest.head?
  /-- The errors are about the lines that are no statements, and about the one without a slot. -/
  errors : ((ofLines lines).report.toList.filter (·.severity == .error)).map Message.position =
    (kept.filter Line.isUnreadable ++ rest.head?.toList).map (fun l => some l.position)
  /-- The warnings are about the lines that define a name again, and note the definition before. -/
  warnings : ((ofLines lines).report.toList.filter (·.severity == .warning)).map
      (fun m => (m.position, m.notes.map Note.position)) =
    (eachBehind (fun before l => (redefinition? before l).toList) [] kept).map
      fun x => (some x.1.position, [some x.2.position])

/-- **Labels stand for the instructions in front of them.** Of any lines, those in front of the first
    instruction for which there is no slot are listed in order, each with what it says; the
    instructions have the slots from zero up, and no other line has one. A label that is defined has
    the number of instructions in front of its last definition, with all its digits, and no other name
    has a slot. The errors are one about each line that is no statement, and a last one about the
    instruction without a slot; the warnings are one about each line that defines a name again, with a
    note at the definition right before. -/
theorem ofLines_labelled (lines : List Line) : ∃ kept rest, ListedUpTo lines kept rest := by
  obtain ⟨kept, rest, hcut, hlabelled⟩ := extend_labelled lines labelled_empty (Nat.zero_le _)
  rw [List.nil_append, List.nil_append] at hcut
  rw [List.nil_append] at hlabelled
  refine ⟨kept, rest, ?_⟩
  constructor
  case cutOff => exact hcut
  case unique => exact hcut.kept_eq
  case labelled => exact hlabelled
  case errors =>
    have hlast : (rest.head?.toList.map fullMessage).filter (·.severity == .error) =
        rest.head?.toList.map fullMessage := by
      simp [fullMessage, Message.about]
    rw [ofLines, hlabelled.report, List.filter_append, hlast, List.map_append,
      map_filter_eachBehind]
    simp only [errors_lineMessages]
    rw [eachBehind_ite, List.map_append, List.map_map]
    rfl
  case warnings =>
    have hlast : (rest.head?.toList.map fullMessage).filter (·.severity == .warning) = [] := by
      simp [fullMessage, Message.about]
    rw [ofLines, hlabelled.report, List.filter_append, hlast, List.append_nil,
      map_filter_eachBehind, map_eachBehind]
    simp only [warnings_lineMessages]

end Listing

end MacroAsm
