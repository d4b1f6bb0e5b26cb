import MacroAsm.Memory.Assignment
import MacroAsm.Proofs.Diagnostics.Positions

set_option autoImplicit false

/-! # Positions of layouts and variables

A layout and its declarations remember where they stand, and so do the variables that code uses. All
these positions are those of lines that were read, so the search for a layout (`Layout.find_at`) and
the assignment of addresses (`Layout.assign_at`) report at such lines only. -/

namespace MacroAsm

variable {P : Position → Prop}

namespace Layout

/-- A layout and its declarations stand at such positions. -/
structure At (P : Position → Prop) (layout : Layout) : Prop where
  position : ∀ p ∈ layout.position, P p
  declarations : ∀ d ∈ layout.declarations, P d.position

/-! ## Declarations -/

/-- The declarations that were read, and what was reported, stand at such positions. -/
structure Declarations.At (P : Position → Prop) (ds : Declarations) : Prop where
  table : ∀ d ∈ ds.table.values, P d.position
  report : ds.report.At P

variable {l : Line}

theorem Declarations.At.step {ds : Declarations} (h : ds.At P) (kind : LayoutKind)
    (hl : P l.position) : (ds.step kind l).At P := by
  unfold Declarations.step
  split
  · exact h
  · split
    · exact ⟨h.table, h.report.push (Message.at_about hl _ _)⟩
    · next name address _ =>
      split
      · next previous hfind =>
        have hprevious := h.table previous (Registry.mem_values.2 ⟨_, hfind⟩)
        refine ⟨h.table, h.report.push ((Message.at_about hl _ _).withNote (fun p hp => ?_) _)⟩
        obtain rfl := Option.some.inj hp
        exact hprevious
      · refine ⟨fun d hd => ?_, h.report⟩
        rcases Registry.mem_values_insert hd with rfl | hd
        · exact hl
        · exact h.table d hd

/-- Declarations stand at the lines that they are read from. -/
theorem readDeclarations_at (kind : LayoutKind) {lines : List Line}
    (hlines : ∀ l ∈ lines, P l.position) :
    (∀ d ∈ (readDeclarations kind lines).1, P d.position) ∧
      (readDeclarations kind lines).2.At P := by
  have hempty : Declarations.At P ⟨.empty, .empty⟩ := by
    refine ⟨fun d hd => ?_, Report.at_empty⟩
    simp at hd
  have h := List.foldlRecOn lines (Declarations.step kind) hempty
    fun ds hds l hl => hds.step kind (hlines l hl)
  exact ⟨h.table, h.report⟩

/-! ## The search for a layout -/

/-- A block that is being read consists of lines at such positions. -/
structure Block.At (P : Position → Prop) (b : Block) : Prop where
  start : P b.start.position
  lines : ∀ l ∈ b.lines, P l.position

/-- The layout found, the block being read, and what was reported stand at such positions. -/
structure Search.At (P : Position → Prop) (s : Search) : Prop where
  found : ∀ layout ∈ s.found, layout.At P
  current : ∀ b ∈ s.current, b.At P
  report : s.report.At P

namespace Search

variable {s : Search} {b : Block}

theorem At.addMessage (h : s.At P) {m : Message} (hm : m.At P) : (s.addMessage m).At P :=
  ⟨h.found, h.current, h.report.push hm⟩

theorem At.take (h : s.At P) (hb : b.At P) : (s.take b).At P := by
  have hclosed : Search.At P { s with current := none } := ⟨h.found, by simp, h.report⟩
  unfold Search.take
  dsimp only
  split
  · next first hfound =>
    exact hclosed.addMessage
      ((Message.at_about hb.start _ _).withNote (h.found first hfound).position _)
  · have hlines : ∀ l ∈ b.lines.reverse, P l.position :=
      fun l hl => hb.lines l (List.mem_reverse.1 hl)
    obtain ⟨hdeclarations, hreport⟩ := readDeclarations_at b.kind hlines
    refine ⟨fun layout hlayout => ?_, by simp, h.report.append hreport⟩
    obtain rfl := Option.some.inj hlayout
    refine ⟨fun p hp => ?_, hdeclarations⟩
    obtain rfl := Option.some.inj hp
    exact hb.start

theorem At.begin (h : s.At P) (hl : P l.position) (kind : LayoutKind) (words : String) :
    (s.begin l kind words).At P := by
  have hblock (balance : Balance) : Block.At P ⟨kind, balance, l, []⟩ := ⟨hl, by simp⟩
  -- where the block begins nothing but the report may have changed
  have hopen (s' : Search) (h' : s'.At P) (balance : Balance) :
      Search.At P (if kind.hasBlock then { s' with current := some ⟨kind, balance, l, []⟩ }
        else s'.take ⟨kind, balance, l, []⟩) := by
    split
    · refine ⟨h'.found, fun b hb => ?_, h'.report⟩
      obtain rfl := Option.some.inj hb
      exact hblock balance
    · exact h'.take (hblock balance)
  unfold Search.begin
  split
  · next heq =>
    split at heq
    · obtain ⟨rfl, rfl⟩ := Prod.mk.inj heq
      exact hopen _ h _
    · obtain ⟨rfl, rfl⟩ := Prod.mk.inj heq
      exact hopen _ h _
    · obtain ⟨rfl, rfl⟩ := Prod.mk.inj heq
      exact hopen _ (h.addMessage (Message.at_about hl _ _)) _

theorem At.step (h : s.At P) (hl : P l.position) : (s.step l).At P := by
  unfold Search.step
  split
  · next b hb =>
    have hblock := h.current b hb
    split
    · exact h.take hblock
    · refine ⟨h.found, fun b' hb' => ?_, h.report⟩
      obtain rfl := Option.some.inj hb'
      refine ⟨hblock.start, fun k hk => ?_⟩
      rcases List.mem_cons.1 hk with rfl | hk
      · exact hl
      · exact hblock.lines k hk
  · split
    · exact h
    · split
      · exact ⟨h.found, h.current, h.report⟩
      · split
        · exact ⟨h.found, h.current, h.report⟩
        · split
          · split
            · exact h.addMessage ((Message.at_about hl _ _).withNote (by simp) _)
            · exact h.begin hl _ _
          · exact h

theorem At.close (h : s.At P) : s.close.At P := by
  unfold Search.close
  split
  · next b hb =>
    have hblock := h.current b hb
    exact (h.addMessage (Message.at_about hblock.start _ _)).take hblock
  · exact h

end Search

/-- The layout of a file, and what is reported about it, stands in the file. -/
theorem find_at {lines : List Line} (hlines : ∀ l ∈ lines, P l.position) :
    (find lines).1.At P ∧ (find lines).2.At P := by
  have hstart : Search.At P ⟨none, false, none, .empty⟩ := ⟨by simp, by simp, Report.at_empty⟩
  have hclosed := (List.foldlRecOn lines Search.step hstart
    fun s hs l hl => hs.step (hlines l hl)).close
  unfold find
  dsimp only
  split
  · next layout hfound => exact ⟨hclosed.found layout hfound, hclosed.report⟩
  · refine ⟨⟨by simp [default], by simp [default]⟩, hclosed.report.push fun p hp => ?_⟩
    simp [Message.positions, Search.absentMessage] at hp

/-! ## Variables in use -/

/-- Variables that are in use are first used at such positions. -/
def UsedAt (P : Position → Prop) (used : Registry Position) : Prop :=
  ∀ name p, used.find? name = some p → P p

theorem UsedAt.insertNew {used : Registry Position} (h : UsedAt P used) (name : String)
    {p : Position} (hp : P p) : UsedAt P (used.insertNew name p) := by
  intro other q hq
  unfold Registry.insertNew at hq
  split at hq
  · exact h other q hq
  · rw [Registry.find?_insert] at hq
    split at hq
    · obtain rfl := Option.some.inj hq
      exact hp
    · exact h other q hq

/-- A variable is first used on a line of the code. -/
theorem usedAt_usedVariables {code : List Line} (hcode : ∀ l ∈ code, P l.position) :
    UsedAt P (usedVariables code) := by
  refine List.foldlRecOn code _ (fun name p hfind => by simp at hfind) fun used hused l hl => ?_
  exact List.foldlRecOn (variablesIn l.code) _ hused
    fun used hused name _ => hused.insertNew name (hcode l hl)

/-! ## Assigning addresses -/

theorem Assigned.note_at {s : Assigned} (h : s.report.At P) (name : String) {p : Position}
    (hp : P p) (granted : Except AllocationError (Nat × Allocator)) :
    (s.note name p granted).report.At P := by
  cases granted with
  | ok granted => exact h
  | error e => exact h.push (Message.at_about hp _ _)

theorem Assigned.grantExplicit_at {s : Assigned} (h : s.report.At P) {d : Declaration}
    (hd : P d.position) : (s.grantExplicit d).report.At P := by
  unfold Assigned.grantExplicit
  split
  · exact h
  · exact Assigned.note_at h _ hd _

theorem Assigned.grantNext_at {s : Assigned} (h : s.report.At P) (balance : Balance) (o : Options)
    {item : (String × Position) × Nat} (hitem : P item.1.2) :
    (s.grantNext balance o item).report.At P :=
  Assigned.note_at h _ hitem _

/-- The variables that are served stand where they are declared, or first used. -/
theorem names_at {layout : Layout} (hlayout : layout.At P) {used : Registry Position}
    (hused : UsedAt P used) : ∀ x ∈ layout.names used, P x.2 := by
  have hdeclared : ∀ x ∈ layout.declarations.map fun d => (d.name, d.position), P x.2 := by
    intro x hx
    obtain ⟨d, hd, rfl⟩ := List.mem_map.1 hx
    exact hlayout.declarations d hd
  intro x hx
  unfold names at hx
  split at hx
  · exact hused _ _ (Registry.mem_entries.1 hx)
  · exact hdeclared x hx

theorem usageMessages_at {layout : Layout} (hlayout : layout.At P) {used : Registry Position}
    (hused : UsedAt P used) : ∀ m ∈ layout.usageMessages used, m.At P := by
  intro m hm
  unfold usageMessages at hm
  split at hm
  · simp at hm
  · rcases List.mem_append.1 hm with hm | hm
    · obtain ⟨u, hu, rfl⟩ := List.mem_map.1 hm
      have hfirst := hused _ _ (Registry.mem_entries.1 (List.mem_filter.1 hu).1)
      exact (Message.at_about hfirst _ _).withNote hlayout.position _
    · obtain ⟨d, hd, rfl⟩ := List.mem_map.1 hm
      exact Message.at_about (hlayout.declarations d (List.mem_filter.1 hd).1) _ _

/-- What is reported about addresses stands where variables are declared or used, and where the layout
    begins. -/
theorem assign_at {layout : Layout} (hlayout : layout.At P) {code : List Line}
    (hcode : ∀ l ∈ code, P l.position) (o : Options) : (layout.assign code o).2.At P := by
  have hused := usedAt_usedVariables hcode
  refine Report.At.append ?_ (Report.at_ofList (usageMessages_at hlayout hused))
  split
  · exact List.foldlRecOn (motive := fun s : Assigned => s.report.At P) _ _ Report.at_empty
      fun s h d hd => Assigned.grantExplicit_at h (hlayout.declarations d hd)
  · refine List.foldlRecOn (motive := fun s : Assigned => s.report.At P) _ _ Report.at_empty
      fun s h item hitem => ?_
    have hname : item.1 ∈ layout.names (usedVariables code) := List.fst_mem_of_mem_zipIdx hitem
    exact Assigned.grantNext_at h _ _ (names_at hlayout hused _ hname)

end Layout

end MacroAsm
