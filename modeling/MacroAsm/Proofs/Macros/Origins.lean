import MacroAsm.Compilation
import MacroAsm.Proofs.Macros.Characters
import MacroAsm.Proofs.Macros.Runs
import MacroAsm.Proofs.Source.Positions

set_option autoImplicit false

/-! # Origins of expanded code

A line that an expansion puts in place of another stands where that one stands. So each line of
expanded code has its origin among the lines of code (`Expansion.ComesFrom`): it is that line, or it
has taken, after any number of expansions, the place of a use of a macro, or of the closer of the
block that the use wraps. What is reported stands at such lines, too (`MacroTable.expand_origins`).
Macros themselves remember the line they begin on (`Compilation.loadMacros_at`). -/

namespace MacroAsm

variable {P : Position → Prop}

/-! ## Reading macros -/

/-- The macros of a table begin at such positions. -/
def MacroTable.At (P : Position → Prop) (table : MacroTable) : Prop :=
  ∀ m ∈ table.values, ∀ p ∈ m.position, P p

namespace MacroReader

/-- The macros that were read, the one being read, and what was reported stand at such positions. -/
structure At (P : Position → Prop) (r : MacroReader) : Prop where
  table : r.table.At P
  current : ∀ o ∈ r.current, P o.start.position
  report : r.report.At P

variable {r : MacroReader} {l : Line}

theorem At.addMessage (h : r.At P) {m : Message} (hm : m.At P) : (r.addMessage m).At P :=
  ⟨h.table, h.current, h.report.push hm⟩

theorem At.define (h : r.At P) {start : Line} (hstart : P start.position) {m : Macro}
    (hm : ∀ p ∈ m.position, P p) : (r.define start m).At P := by
  have hinsert (r' : MacroReader) (h' : r'.At P) :
      MacroReader.At P { r' with table := r.table.insert m.name m } := by
    refine ⟨fun k hk => ?_, h'.current, h'.report⟩
    rcases Registry.mem_values_insert hk with rfl | hk
    · exact hm
    · exact h.table k hk
  unfold MacroReader.define
  split
  · next previous hfind =>
    have hprevious := h.table previous (Registry.mem_values.2 ⟨_, hfind⟩)
    have hmessage := (Message.at_about hstart .warning
      s!"Re-defined macro: `{m.name}`").withNote hprevious
        "Already defined here. The later definition is used."
    exact hinsert _ (h.addMessage hmessage)
  · exact hinsert _ h

theorem At.finish (h : r.At P) {o : OpenMacro} (ho : P o.start.position) (closer : String)
    (hl : P l.position) : (r.finish o closer l).At P := by
  have hclosed : MacroReader.At P { r with current := none } := ⟨h.table, by simp, h.report⟩
  unfold MacroReader.finish
  dsimp only
  split
  · exact hclosed.addMessage (Message.at_about hl _ _)
  · split
    · exact hclosed.addMessage (Message.at_about ho _ _)
    · refine hclosed.define ho fun p hp => ?_
      obtain rfl := Option.some.inj hp
      exact ho

theorem At.addLine (h : r.At P) {o : OpenMacro} (ho : P o.start.position) (hl : P l.position) :
    (r.addLine o l).At P := by
  have hcurrent (r' : MacroReader) (h' : r'.At P) {o' : OpenMacro} (ho' : o'.start = o.start) :
      MacroReader.At P { r' with current := some o' } := by
    refine ⟨h'.table, fun k hk => ?_, h'.report⟩
    obtain rfl := Option.some.inj hk
    rwa [ho']
  unfold MacroReader.addLine
  split
  · dsimp only
    split
    · exact hcurrent _ (h.addMessage (Message.at_about hl _ _)) rfl
    · exact hcurrent _ h rfl
  · split
    · exact h
    · refine hcurrent _ h ?_
      unfold OpenMacro.addCode
      split <;> rfl

theorem At.step (h : r.At P) (hl : P l.position) : (r.step l).At P := by
  unfold MacroReader.step
  split
  · refine ⟨h.table, fun o ho => ?_, h.report⟩
    obtain rfl := Option.some.inj ho
    exact hl
  · exact h.addMessage (Message.at_about hl _ _)
  · exact h
  · exact h.addMessage (Message.at_about hl _ _)
  · next o closer ho _ => exact h.finish (h.current o ho) closer hl
  · next o ho _ _ => exact h.addLine (h.current o ho) hl

theorem At.close (h : r.At P) : r.close.At P := by
  unfold MacroReader.close
  split
  · next o ho => exact h.addMessage (Message.at_about (h.current o ho) _ _)
  · exact h

end MacroReader

/-- What a file adds to a table, and what is reported about it, stands in this file. -/
theorem MacroTable.At.load {table : MacroTable} (h : table.At P) {lines : List Line}
    (hlines : ∀ l ∈ lines, P l.position) :
    (table.load lines).1.At P ∧ (table.load lines).2.At P := by
  have hstart : MacroReader.At P ⟨table, none, .empty⟩ := ⟨h, by simp, Report.at_empty⟩
  have hclosed := (List.foldlRecOn lines MacroReader.step hstart
    fun r hr l hl => hr.step (hlines l hl)).close
  exact ⟨hclosed.table, hclosed.report⟩

/-- What is reported about macros stands in the files that they are read from. -/
theorem Compilation.loadMacros_at {files : List (List Line)}
    (h : ∀ lines ∈ files, ∀ l ∈ lines, P l.position) :
    (loadMacros files).1.At P ∧ (loadMacros files).2.At P := by
  refine List.foldlRecOn (motive := fun acc : MacroTable × Report => acc.1.At P ∧ acc.2.At P)
    files _ ⟨fun m hm => ?_, Report.at_empty⟩ fun acc hacc lines hlines => ?_
  · simp at hm
  · obtain ⟨htable, hreport⟩ := hacc.1.load (h lines hlines)
    exact ⟨htable, hacc.2.append hreport⟩

namespace Expansion

/-! ## One expansion -/

/-- How a line comes from a line of code: it is that line, or it was put in the place of the line of
    a use, or of the closer of the block of a use, that comes from it. -/
inductive ComesFrom (macros : List Macro) (code : List Line) : Line → Line → Prop
  | code {l : Line} (hl : l ∈ code) : ComesFrom macros code l l
  | top {origin : Line} {u : Use} {uid : Nat} {top : List Line} {k : Line}
      (hline : ComesFrom macros code origin u.line)
      (huse : Macro.use? macros u.line.code = some (u.mac, u.args))
      (hfill : fillLines u.mac.top u.args uid u.line = .ok top) (hk : k ∈ top) :
      ComesFrom macros code origin k
  | bottom {origin : Line} {u : Use} {uid : Nat} {closer : String} {block : Block}
      {bottom : List Line} {k : Line} (hline : ComesFrom macros code origin block.closer)
      (huse : Macro.use? macros u.line.code = some (u.mac, u.args))
      (hcloser : closerText u.mac u.args uid = .ok closer)
      (hblock : findCloser u.mac closer 0 [] u.rest = some block)
      (hfill : fillLines u.mac.bottom u.args uid block.closer = .ok bottom) (hk : k ∈ bottom) :
      ComesFrom macros code origin k

/-- Lines that are filled stand where the line stands whose place they take. -/
theorem position_of_fillLines {templates args : List String} {uid : Nat} {l : Line}
    {lines : List Line} (h : fillLines templates args uid l = .ok lines) {k : Line}
    (hk : k ∈ lines) : k.position = l.position := by
  obtain ⟨s, -, code, -, rfl⟩ := of_mem_fillLines h hk
  rfl

variable {macros : List Macro} {code : List Line}

/-- A line stands where its origin stands, and that is a line of code. -/
theorem ComesFrom.position {origin k : Line} (h : ComesFrom macros code origin k) :
    origin ∈ code ∧ k.position = origin.position := by
  induction h with
  | code hl => exact ⟨hl, rfl⟩
  | top _ _ hfill hk ih => exact ⟨ih.1, (position_of_fillLines hfill hk).trans ih.2⟩
  | bottom _ _ _ _ hfill hk ih => exact ⟨ih.1, (position_of_fillLines hfill hk).trans ih.2⟩

/-- Lines that all come from lines of code. -/
def Originates (macros : List Macro) (code lines : List Line) : Prop :=
  ∀ k ∈ lines, ∃ origin, ComesFrom macros code origin k

/-- A message stands at a line that comes from a line of code. -/
def MessageOriginates (macros : List Macro) (code : List Line) (m : Message) : Prop :=
  ∃ origin l, ComesFrom macros code origin l ∧ m.positions = [l.position]

section One

variable {u : Use} (huse : Macro.use? macros u.line.code = some (u.mac, u.args))
  (hlines : Originates macros code (u.line :: u.rest))

include huse hlines

/-- One expansion leaves lines that come from lines of code, and so do the lines that its messages
    stand at: the line of the use, or that of the closer. -/
theorem originates_expandUse (uid : Nat) :
    Originates macros code (expandUse u uid).1 ∧
      ∀ m ∈ (expandUse u uid).2, MessageOriginates macros code m := by
  obtain ⟨origin, hline⟩ := hlines u.line List.mem_cons_self
  have hrest : Originates macros code u.rest := fun k hk => hlines k (List.mem_cons_of_mem _ hk)
  have htop {top : List Line} (hfill : fillLines u.mac.top u.args uid u.line = .ok top) :
      Originates macros code top := fun k hk => ⟨origin, .top hline huse hfill hk⟩
  have hexpands := expands_expandUse u uid
  generalize expandUse u uid = result at hexpands ⊢
  cases hexpands with
  | unfilled | unclosed =>
    exact ⟨hrest, List.forall_mem_singleton.2 ⟨origin, u.line, hline, rfl⟩⟩
  | top hfill => exact ⟨List.forall_mem_append.2 ⟨htop hfill, hrest⟩, List.forall_mem_nil _⟩
  | @block _ _ b hfill hcloser hblock =>
    have hmem {k : Line} (hk : k ∈ b.inside ∨ k = b.closer ∨ k ∈ b.after) :
        ∃ origin, ComesFrom macros code origin k :=
      hrest k ((mem_of_findCloser hblock hk).resolve_left List.not_mem_nil)
    obtain ⟨origin', hend⟩ := hmem (.inr (.inl rfl))
    have hbottom : Originates macros code (bottomLines u uid b.closer).1 := by
      rcases bottomLines_cases u uid b.closer with ⟨lines, hfill', heq⟩ | ⟨e, heq⟩
      · rw [heq]
        exact fun k hk => ⟨origin', .bottom hend huse hcloser hblock hfill' hk⟩
      · rw [heq]
        exact List.forall_mem_nil _
    refine ⟨fun k hk => ?_, fun m hm => ?_⟩
    · simp only [List.mem_append] at hk
      rcases hk with ((hk | hk) | hk) | hk
      · exact htop hfill k hk
      · exact hmem (.inl hk)
      · exact hbottom k hk
      · exact hmem (.inr (.inr hk))
    · obtain ⟨e, rfl⟩ := exists_of_mem_bottomLines hm
      exact ⟨origin', b.closer, hend, rfl⟩

end One

/-! ## Runs of expansions -/

/-- The step: the first use is expanded, and the lines in front of it stay. -/
theorem Originates.step {uid : Nat} {lines lines' : List Line} {messages : List Message}
    (h : Originates macros code lines) (hstep : Step macros uid lines lines' messages) :
    Originates macros code lines' ∧ ∀ m ∈ messages, MessageOriginates macros code m := by
  obtain ⟨huse⟩ := hstep
  next kept u =>
  obtain rfl := huse.lines_eq
  have hfrom : Originates macros code (u.line :: u.rest) := fun k hk =>
    h k (List.mem_append_right kept hk)
  obtain ⟨hlines, hmessages⟩ := originates_expandUse huse.use? hfrom uid
  refine ⟨fun k hk => ?_, hmessages⟩
  rcases List.mem_append.1 hk with hk | hk
  · exact h k (List.mem_append_left _ hk)
  · exact hlines k hk

/-- The run: one expansion after another. -/
theorem Originates.steps {n uid : Nat} {lines lines' : List Line} {messages : List Message}
    (h : Originates macros code lines) (hsteps : Steps macros n uid lines lines' messages) :
    Originates macros code lines' ∧ ∀ m ∈ messages, MessageOriginates macros code m := by
  induction hsteps with
  | refl => exact ⟨h, by simp⟩
  | head hstep _ ih =>
    obtain ⟨hlines, hmessages⟩ := h.step hstep
    obtain ⟨hlines', hmessages'⟩ := ih hlines
    refine ⟨hlines', fun m hm => ?_⟩
    rcases List.mem_append.1 hm with hm | hm
    · exact hmessages m hm
    · exact hmessages' m hm

end Expansion

/-- Expanded code comes from the lines of code, and what is reported about it stands at lines that do:
    the lines of uses, and closers. -/
theorem MacroTable.expand_origins (table : MacroTable) (code : List Line) :
    Expansion.Originates table.values code (table.expand code).1 ∧
      ∀ m ∈ (table.expand code).2.toList,
        Expansion.MessageOriginates table.values code m := by
  have hcode : Expansion.Originates table.values code code := fun l hl => ⟨l, .code hl⟩
  obtain ⟨n, -, messages, hsteps, -, hends⟩ :=
    Expansion.exists_steps table.values Expansion.limit 1 (List.forall_mem_nil _) code
  simp only [List.nil_append] at hsteps hends
  obtain ⟨hlines, hmessages⟩ := hcode.steps hsteps
  have hreport : (table.expand code).2.toList =
      (Expansion.expandFrom table.values Expansion.limit 1 code).2 := Report.toList_ofList _
  refine ⟨hlines, fun m hm => ?_⟩
  rw [hreport] at hm
  generalize (Expansion.expandFrom table.values Expansion.limit 1 code).2 = report at hends hm
  cases hends with
  | normal => exact hmessages m hm
  | @limit kept u _ hu =>
    rcases List.mem_append.1 hm with hm | hm
    · exact hmessages m hm
    · -- the run has come to its end at a use, which is one of the lines that it leaves
      obtain rfl := List.mem_singleton.1 hm
      have hmem : u.line ∈ (Expansion.expandFrom table.values Expansion.limit 1 code).1 := by
        rw [hu.lines_eq]
        simp
      obtain ⟨origin, horigin⟩ := hlines u.line hmem
      exact ⟨origin, u.line, horigin, rfl⟩

end MacroAsm
