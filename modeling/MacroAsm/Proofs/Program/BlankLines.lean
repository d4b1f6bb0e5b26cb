import MacroAsm.Memory.Assignment
import MacroAsm.Program.Linking
import MacroAsm.Proofs.Macros.BlankLines

set_option autoImplicit false

/-! # Blank lines in a program

A blank line uses no variable and says nothing. Where blank lines are put in between code, the
variables keep their addresses and the instructions their slots, the same is reported, and a program
differs in nothing but the lines that it was made of (`Program.link_padded`). -/

namespace MacroAsm

variable {lines lines' : List Line}

/-! ## Variables -/

theorem usedVariables_padded (h : Padded Line.Blank lines lines') :
    usedVariables lines' = usedVariables lines := by
  refine h.foldl_eq (fun used l hl => ?_) _
  have hnone : variablesIn l.code = [] := by rw [hl.code]; rfl
  rw [hnone, List.foldl_nil]

theorem Layout.assign_padded (layout : Layout) (o : Options) (h : Padded Line.Blank lines lines') :
    layout.assign lines' o = layout.assign lines o := by
  simp only [assign, usedVariables_padded h]

/-! ## Listings -/

/-- A parsed line that is blank. -/
structure ParsedLine.Blank (p : ParsedLine) : Prop where
  line : p.line.Blank
  statement : p.statement = none

theorem Line.Blank.parse {l : Line} (hl : l.Blank) : Statement.parse l.code = .ok none := by
  rw [hl.code]
  rfl

namespace Listing

/-- Two listings that are equal but for blank lines among the parsed ones. -/
structure Padded (s s' : Listing) : Prop where
  parsed : MacroAsm.Padded ParsedLine.Blank s.parsed.toList s'.parsed.toList
  labels : s'.labels = s.labels
  next : s'.next = s.next
  report : s'.report = s.report

variable {s s' : Listing}

theorem Padded.addMessage (h : s.Padded s') (m : Message) :
    (s.addMessage m).Padded (s'.addMessage m) :=
  ⟨h.parsed, h.labels, h.next, congrArg (·.push m) h.report⟩

theorem Padded.push (h : s.Padded s') (p : ParsedLine) :
    MacroAsm.Padded ParsedLine.Blank (s.parsed.push p).toList (s'.parsed.push p).toList := by
  rw [Array.toList_push, Array.toList_push]
  exact h.parsed.append (.refl [p])

theorem Padded.addLine (h : s.Padded s') (l : Line) (statement : Option Statement) :
    (s.addLine l statement).Padded (s'.addLine l statement) :=
  ⟨h.push ⟨l, statement, none⟩, h.labels, h.next, h.report⟩

theorem Padded.addBlank (h : s.Padded s') {l : Line} (hl : l.Blank) :
    s.Padded (s'.addLine l none) := by
  refine ⟨?_, h.labels, h.next, h.report⟩
  rw [Listing.addLine, Array.toList_push]
  exact h.parsed.concat ⟨hl, rfl⟩

theorem Padded.addLabel (h : s.Padded s') (l : Line) (name : String) :
    (s.addLabel l name).Padded (s'.addLabel l name) := by
  unfold Listing.addLabel
  rw [h.labels, h.next]
  dsimp only
  split
  · next previous _ =>
    have hmessage := h.addMessage (redefinedMessage l name previous)
    exact ⟨hmessage.parsed, rfl, hmessage.next, hmessage.report⟩
  · exact ⟨h.parsed, rfl, h.next, h.report⟩

theorem Padded.addInstruction (h : s.Padded s') (l : Line) (i : Instruction) :
    (s.addInstruction l i).Padded (s'.addInstruction l i) := by
  unfold Listing.addInstruction
  rw [h.next]
  exact ⟨h.push ⟨l, some (.instruction i), some (UInt16.ofNat s.next)⟩, h.labels, rfl, h.report⟩

/-- Blank lines are read as lines that say nothing. -/
theorem Padded.extend (h : MacroAsm.Padded Line.Blank lines lines') (hs : s.Padded s') :
    (s.extend lines).Padded (s'.extend lines') := by
  induction h generalizing s s' with
  | nil => exact hs
  | cons l hrest ih =>
    unfold Listing.extend
    split
    · next e _ => exact ih ((hs.addMessage (unreadableMessage l e)).addLine l none)
    · exact ih (hs.addLine l none)
    · next name _ => exact ih ((hs.addLabel l name).addLine l (some (.label name)))
    · next i _ =>
      rw [hs.next]
      split
      · exact hs.addMessage (fullMessage l)
      · exact ih (hs.addInstruction l i)
  | @pad l as bs hl hrest ih =>
    have hskip : s'.extend (l :: bs) = (s'.addLine l none).extend bs := by
      simp only [Listing.extend, hl.parse]
    rw [hskip]
    exact ih (hs.addBlank hl)

theorem ofLines_padded (h : MacroAsm.Padded Line.Blank lines lines') :
    (ofLines lines).Padded (ofLines lines') :=
  .extend h ⟨.refl _, rfl, rfl, rfl⟩

end Listing

/-! ## Programs -/

/-- Two programs that are equal but for blank lines among those that they were made of. -/
structure Program.Padded (p p' : Program) : Prop where
  parsed : MacroAsm.Padded ParsedLine.Blank p.parsed p'.parsed
  output : p' = { p with parsed := p'.parsed }

/-- Blank lines add nothing to a program, and are no reason for an error. -/
theorem Program.link_padded (scope : Scope) {parsed parsed' : List ParsedLine}
    (h : MacroAsm.Padded ParsedLine.Blank parsed parsed') :
    (link scope parsed).1.Padded (link scope parsed').1 ∧
      (link scope parsed').2 = (link scope parsed).2 := by
  have hpart {β : Type} {f : ParsedLine × Encoded → Option β}
      (hf : ∀ p : ParsedLine, p.line.comment = none → f (p, .nothing) = none) :
      (parsed'.map fun p => (p, Encoded.ofStatement scope p.statement)).filterMap f =
        (parsed.map fun p => (p, Encoded.ofStatement scope p.statement)).filterMap f := by
    rw [List.filterMap_map, List.filterMap_map]
    refine h.filterMap_eq fun p hp => ?_
    rw [Function.comp, hp.statement]
    exact hf p hp.line.comment
  have hannotated : ∀ p : ParsedLine, p.line.comment = none →
      Encoded.annotated? p.line.comment .nothing = none := fun p hp => by rw [hp]; rfl
  refine ⟨⟨h, ?_⟩, ?_⟩
  · simp only [link]
    rw [hpart fun _ _ => rfl, hpart hannotated, hpart fun _ _ => rfl, hpart fun _ _ => rfl,
      hpart fun _ _ => rfl]
  · simp only [link]
    rw [hpart fun _ _ => rfl]

end MacroAsm
