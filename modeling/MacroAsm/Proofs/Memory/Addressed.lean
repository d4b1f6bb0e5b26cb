import Mathlib.Data.List.Induction
import MacroAsm.Proofs.Memory.Search
import MacroAsm.Proofs.Memory.UsedNames

set_option autoImplicit false

/-! # Variables with addresses

An assignment of addresses serves a list of names: those that the code uses under a layout that takes
them from there, those declared otherwise. Without an error each of them has an address
(`Assigned.Serves`), and no other name has one. A name that is used but not declared is an error of
its own, so without an error every variable in use has its address (`Layout.mem_names_assign`). -/

namespace MacroAsm

/-! ## Names that were entered -/

namespace Registry

variable {α β : Type}

theorem contains_eq_true_iff {r : Registry α} {name : String} :
    r.contains name = true ↔ name ∈ r.names := by
  rw [mem_names, find?, contains, Std.TreeMap.isSome_getElem?_eq_contains]

theorem mem_names_insert {r : Registry α} {name other : String} {value : α} :
    other ∈ (r.insert name value).names ↔ other = name ∨ other ∈ r.names := by
  rw [mem_names, mem_names, find?_insert]
  split
  · next h => simp [h]
  · next h => simp [h]

/-- Names entered one after the other stand where they were first entered. -/
theorem foldl_enter_nil (names : List String) : names.foldl enter [] = names.eraseDups := by
  induction names using List.reverseRecOn with
  | nil => rfl
  | append_singleton names name ih =>
    rw [List.foldl_append, List.foldl_cons, List.foldl_nil, ih, List.eraseDups_append, enter]
    by_cases h : name ∈ names
    · simp [h, List.removeAll]
    · simp [h, List.removeAll, List.eraseDups_cons]

theorem names_foldl_insertNew (name : β → String) (value : β → α) (xs : List β) (r : Registry α) :
    (xs.foldl (fun r x => r.insertNew (name x) (value x)) r).names =
      (xs.map name).foldl enter r.names := by
  induction xs generalizing r with
  | nil => rfl
  | cons x xs ih => rw [List.foldl_cons, ih, names_insertNew, List.map_cons, List.foldl_cons]

end Registry

/-- The variables in use are those of the lines, each where it is first used. -/
theorem names_usedVariables_eq_eraseDups (lines : List Line) :
    (usedVariables lines).names = (variablesOfLines lines).eraseDups := by
  rw [names_usedVariables, Registry.foldl_enter_nil]

namespace Layout

/-! ## Grants -/

/-- What grants to some names come to: they take away no address and report an error for each of the
    names that gets none. -/
structure Assigned.Serves (s : Assigned) (names : List String) (s' : Assigned) : Prop where
  mem_of_mem : ∀ {name}, name ∈ s'.addresses.names → name ∈ s.addresses.names ∨ name ∈ names
  faultless : s'.report.hasError = false → s.report.hasError = false
  mem : s'.report.hasError = false → ∀ {name}, name ∈ s.addresses.names ∨ name ∈ names →
    name ∈ s'.addresses.names

namespace Assigned

variable {s s' s'' : Assigned}

theorem Serves.refl (s : Assigned) : s.Serves [] s :=
  ⟨.inl, id, fun _ _ h => h.elim id fun h => absurd h List.not_mem_nil⟩

theorem Serves.trans {names names' : List String} (h : s.Serves names s')
    (h' : s'.Serves names' s'') : s.Serves (names ++ names') s'' := by
  refine ⟨fun hmem => ?_, fun he => h.faultless (h'.faultless he), fun he name hmem => ?_⟩
  · rw [List.mem_append]
    rcases h'.mem_of_mem hmem with hmem | hmem
    · rcases h.mem_of_mem hmem with hmem | hmem
      · exact .inl hmem
      · exact .inr (.inl hmem)
    · exact .inr (.inr hmem)
  · rw [List.mem_append] at hmem
    refine h'.mem he ?_
    rcases hmem with hmem | hmem | hmem
    · exact .inl (h.mem (h'.faultless he) (.inl hmem))
    · exact .inl (h.mem (h'.faultless he) (.inr hmem))
    · exact .inr hmem

theorem note_serves (s : Assigned) (name : String) (p : Position)
    (granted : Except AllocationError (Nat × Allocator)) :
    s.Serves [name] (s.note name p granted) := by
  cases granted with
  | error e =>
    have he : ((s.note name p (.error e)).report.hasError = false) → False := by
      simp [note, Report.hasError_push, allocationMessage, Message.about]
    exact ⟨.inl, fun h => (he h).elim, fun h => (he h).elim⟩
  | ok granted =>
    refine ⟨fun h => ?_, id, fun _ other h => ?_⟩
    · rw [List.mem_singleton]
      exact (Registry.mem_names_insert.1 h).symm
    · rw [List.mem_singleton] at h
      exact Registry.mem_names_insert.2 h.symm

theorem grantNext_serves (balance : Balance) (o : Options) (s : Assigned)
    (item : (String × Position) × Nat) :
    s.Serves [item.1.1] (s.grantNext balance o item) :=
  note_serves s item.1.1 item.1.2 _

theorem grantExplicit_serves (s : Assigned) {d : Declaration} (h : d.address.isSome = true) :
    s.Serves [d.name] (s.grantExplicit d) := by
  unfold grantExplicit
  split
  · next hnone => simp [hnone] at h
  · exact note_serves s d.name d.position _

/-- Grants one after the other serve all their names. -/
theorem foldl_serves {α : Type} {f : Assigned → α → Assigned} {name : α → String} {xs : List α}
    (hf : ∀ s : Assigned, ∀ x ∈ xs, s.Serves [name x] (f s x)) (s : Assigned) :
    s.Serves (xs.map name) (xs.foldl f s) := by
  induction xs generalizing s with
  | nil => exact .refl s
  | cons x xs ih =>
    have htail := ih (fun s y hy => hf s y (List.mem_cons_of_mem x hy)) (f s x)
    exact (hf s x List.mem_cons_self).trans htail

end Assigned

/-! ## Declarations -/

/-- Under a layout with addresses of its own, each declaration has one. -/
def Addressed (layout : Layout) : Prop :=
  layout.kind = .explicit → ∀ d ∈ layout.declarations, d.address.isSome = true

theorem isSome_of_readDeclaration {words : List (List Char)} {name : String} {address : Option Nat}
    (h : readDeclaration .explicit words = .ok (name, address)) : address.isSome = true := by
  unfold readDeclaration at h
  split at h
  · next heq => exact absurd heq (by decide)
  · dsimp only at h
    split at h
    · unfold declared at h
      dsimp only at h
      split at h
      · obtain ⟨-, rfl⟩ := Prod.mk.inj (Except.ok.inj h)
        rfl
      · simp at h
    · simp at h
  · simp at h
  · simp at h

theorem Declarations.isSome_of_mem_step {ds : Declarations} {l : Line}
    (hds : ∀ d ∈ ds.table.values, d.address.isSome = true) :
    ∀ d ∈ (ds.step .explicit l).table.values, d.address.isSome = true := by
  unfold Declarations.step
  split
  · exact hds
  · split
    · exact hds
    · next name address hread =>
      split
      · exact hds
      · intro d hd
        rcases Registry.mem_values_insert hd with rfl | hd
        · exact isSome_of_readDeclaration hread
        · exact hds d hd

theorem isSome_of_mem_readDeclarations (lines : List Line) :
    ∀ d ∈ (readDeclarations .explicit lines).1, d.address.isSome = true := by
  show ∀ d ∈ (lines.foldl (Declarations.step .explicit) ⟨.empty, .empty⟩).table.values,
    d.address.isSome = true
  refine List.foldlRecOn lines (Declarations.step .explicit)
    (motive := fun ds => ∀ d ∈ ds.table.values, d.address.isSome = true) ?_
    fun _ hds _ _ => Declarations.isSome_of_mem_step hds
  simp

/-- The layout of a file has the addresses that it needs. -/
theorem find_addressed (lines : List Line) : (find lines).1.Addressed := by
  intro hkind
  rcases find_cases lines with h | ⟨b, h⟩
  · rw [h] at hkind
    exact absurd hkind (by decide)
  · rw [h] at hkind ⊢
    have hdeclared := isSome_of_mem_readDeclarations b.lines.reverse
    rw [← hkind] at hdeclared
    exact hdeclared

/-! ## Layouts -/

/-- The names that are given addresses. -/
def served (layout : Layout) (used : Registry Position) : List String :=
  match layout.kind with
  | .staticAuto => used.names
  | _ => layout.declarations.map Declaration.name

theorem map_fst_names (layout : Layout) (used : Registry Position) :
    (layout.names used).map Prod.fst = layout.served used := by
  unfold names served
  cases layout.kind with
  | staticAuto => exact Registry.map_fst_entries used
  | static => exact List.map_map
  | explicit => exact List.map_map

/-- An assignment serves the names of its layout; the report of the grants is in front of its own. -/
theorem exists_assign_serves {layout : Layout} (h : layout.Addressed) (code : List Line)
    (o : Options) : ∃ s : Assigned, Assigned.Serves ⟨.empty, .ofSize o.memorySize, .empty⟩
      (layout.served (usedVariables code)) s ∧
      layout.assign code o =
        (s.addresses, s.report ++ .ofList (layout.usageMessages (usedVariables code))) := by
  by_cases hkind : layout.kind = .explicit
  · have hserves : Assigned.Serves ⟨.empty, .ofSize o.memorySize, .empty⟩
        (layout.declarations.map Declaration.name)
        (layout.declarations.foldl Assigned.grantExplicit ⟨.empty, .ofSize o.memorySize, .empty⟩) :=
      Assigned.foldl_serves (fun s d hd => s.grantExplicit_serves (h hkind d hd)) _
    rw [assign, if_pos hkind, served, hkind]
    exact ⟨_, hserves, rfl⟩
  · have hserves : Assigned.Serves ⟨.empty, .ofSize o.memorySize, .empty⟩
        ((layout.names (usedVariables code)).zipIdx.map fun item => item.1.1)
        ((layout.names (usedVariables code)).zipIdx.foldl (Assigned.grantNext layout.balance o)
          ⟨.empty, .ofSize o.memorySize, .empty⟩) :=
      Assigned.foldl_serves (fun s item _ => s.grantNext_serves layout.balance o item) _
    have hnames := congrArg (List.map Prod.fst) (List.zipIdx_map_fst 0
      (layout.names (usedVariables code)))
    rw [List.map_map, map_fst_names] at hnames
    rw [assign, if_neg hkind, ← hnames]
    exact ⟨_, hserves, rfl⟩

theorem mem_declaredNames {layout : Layout} {name : String} :
    layout.declaredNames.contains name = true ↔
      name ∈ layout.declarations.map Declaration.name := by
  rw [Registry.contains_eq_true_iff, declaredNames, Registry.names_foldl_insertNew]
  exact (Registry.foldl_enter_nil _).symm ▸ List.mem_eraseDups

/-- Without an error every variable in use is one of those that are given addresses. -/
theorem mem_served {layout : Layout} {used : Registry Position}
    (h : (Report.ofList (layout.usageMessages used)).hasError = false) {name : String}
    (hname : name ∈ used.names) : name ∈ layout.served used := by
  unfold served
  split
  · exact hname
  · next hkind =>
    -- otherwise there is a message about the name
    rw [← mem_declaredNames]
    refine Classical.byContradiction fun hnot => ?_
    obtain ⟨p, hp⟩ := Option.isSome_iff_exists.1 (Registry.mem_names.1 hname)
    have hmem : undeclaredMessage layout name p ∈ layout.usageMessages used := by
      unfold usageMessages
      rw [if_neg hkind]
      refine List.mem_append_left _ (List.mem_map.2 ⟨(name, p), ?_, rfl⟩)
      exact List.mem_filter.2 ⟨Registry.mem_entries.2 hp, by simpa using hnot⟩
    have hall := List.any_eq_false.1 h _ hmem
    exact hall rfl

variable {layout : Layout} {code : List Line} {o : Options}

/-- Without an error every variable in use has an address. -/
theorem mem_names_assign (hlayout : layout.Addressed)
    (h : (layout.assign code o).2.hasError = false) {name : String}
    (hname : name ∈ (usedVariables code).names) : name ∈ (layout.assign code o).1.names := by
  obtain ⟨s, hserves, heq⟩ := exists_assign_serves hlayout code o
  rw [heq, Report.hasError_append, Bool.or_eq_false_iff] at h
  rw [heq]
  exact hserves.mem h.1 (.inr (mem_served h.2 hname))

/-- A layout that takes its variables from the code gives addresses to no others. -/
theorem mem_names_usedVariables (hkind : layout.kind = .staticAuto) {name : String}
    (hname : name ∈ (layout.assign code o).1.names) : name ∈ (usedVariables code).names := by
  have hlayout : layout.Addressed := by
    intro h
    rw [hkind] at h
    exact absurd h (by decide)
  obtain ⟨s, hserves, heq⟩ := exists_assign_serves hlayout code o
  rw [heq] at hname
  rcases hserves.mem_of_mem hname with h | h
  · simp at h
  · simpa only [served, hkind] using h

end Layout

end MacroAsm
