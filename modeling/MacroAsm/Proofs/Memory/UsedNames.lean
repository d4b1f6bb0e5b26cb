import MacroAsm.Memory.Assignment

set_option autoImplicit false

/-! # Addresses by names

When variables take the first free addresses, what they get depends only on their names in the order
in which the code uses them (`Layout.assign_congr`), and not on the lines around them. -/

namespace MacroAsm

/-! ## Names in order of entry -/

namespace Registry

variable {α : Type}

/-- A name behind the names that were entered before, unless it is one of them. -/
def enter (names : List String) (name : String) : List String :=
  if name ∈ names then names else names ++ [name]

theorem names_insertNew (r : Registry α) (name : String) (value : α) :
    (r.insertNew name value).names = enter r.names name := by
  have hmem : r.contains name = true ↔ name ∈ r.names := by
    rw [mem_names, find?, contains, Std.TreeMap.isSome_getElem?_eq_contains]
  unfold insertNew enter
  by_cases h : name ∈ r.names
  · rw [if_pos (hmem.2 h), if_pos h]
  · rw [if_neg (mt hmem.1 h), if_neg h, names_insert_of_not_mem h]

end Registry

/-- The variables that some lines use, in order and with repetitions. -/
def variablesOfLines (lines : List Line) : List String :=
  lines.flatMap fun l => variablesIn l.code

/-- Each variable is entered where it is first used. -/
theorem names_usedVariables (lines : List Line) :
    (usedVariables lines).names = (variablesOfLines lines).foldl Registry.enter [] := by
  -- first for the names of one line, then for all lines, both onto any names entered before
  have hline : ∀ (p : Position) (names : List String) (used : Registry Position),
      (names.foldl (fun used name => used.insertNew name p) used).names =
        names.foldl Registry.enter used.names := by
    intro p names
    induction names with
    | nil => exact fun _ => rfl
    | cons name names ih =>
      intro used
      rw [List.foldl_cons, List.foldl_cons, ih, Registry.names_insertNew]
  have hlines : ∀ used : Registry Position,
      (lines.foldl (fun used l =>
        (variablesIn l.code).foldl (fun used name => used.insertNew name l.position) used)
        used).names = (variablesOfLines lines).foldl Registry.enter used.names := by
    unfold variablesOfLines
    induction lines with
    | nil => exact fun _ => rfl
    | cons l lines ih =>
      intro used
      rw [List.foldl_cons, ih, List.flatMap_cons, List.foldl_append, hline]
  exact hlines .empty

/-! ## First free addresses -/

namespace Layout

/-- The same grants were made and the same refused; where a refusal was reported does not count. -/
structure Assigned.Alike (s s' : Assigned) : Prop where
  addresses : s'.addresses = s.addresses
  memory : s'.memory = s.memory
  report : s'.report.hasError = s.report.hasError

/-- A grant to the same name has the same outcome. -/
theorem Assigned.Alike.grantNext {s s' : Assigned} (h : s.Alike s') (o : Options)
    {item item' : (String × Position) × Nat} (hname : item'.1.1 = item.1.1) :
    (s.grantNext .incremental o item).Alike (s'.grantNext .incremental o item') := by
  obtain ⟨⟨name, p⟩, index⟩ := item
  obtain ⟨⟨name', p'⟩, index'⟩ := item'
  obtain rfl : name' = name := hname
  simp only [Assigned.grantNext, h.memory]
  cases s.memory.grantFirst 0 s.memory.last name' with
  | error e =>
    refine ⟨h.addresses, h.memory, ?_⟩
    simp only [Assigned.note, Report.hasError_push, h.report, allocationMessage, Message.about]
  | ok granted => exact ⟨by simp [Assigned.note, h.addresses], rfl, h.report⟩

theorem Assigned.Alike.foldl_grantNext {s s' : Assigned} (h : s.Alike s') (o : Options)
    {items items' : List ((String × Position) × Nat)}
    (hnames : items'.map (fun x => x.1.1) = items.map fun x => x.1.1) :
    (items.foldl (Assigned.grantNext .incremental o) s).Alike
      (items'.foldl (Assigned.grantNext .incremental o) s') := by
  induction items generalizing items' s s' with
  | nil =>
    obtain rfl := List.map_eq_nil_iff.1 hnames
    exact h
  | cons item items ih =>
    cases items' with
    | nil => simp at hnames
    | cons item' items' =>
      rw [List.map_cons, List.map_cons] at hnames
      exact ih (h.grantNext o (List.head_eq_of_cons_eq hnames)) (List.tail_eq_of_cons_eq hnames)

/-- The grants to the variables in use, first free addresses first. -/
def firstFree (used : Registry Position) (o : Options) : Assigned :=
  used.entries.zipIdx.foldl (Assigned.grantNext .incremental o)
    ⟨.empty, .ofSize o.memorySize, .empty⟩

theorem firstFree_congr {used used' : Registry Position} (h : used'.names = used.names)
    (o : Options) : (firstFree used o).Alike (firstFree used' o) := by
  refine Assigned.Alike.foldl_grantNext ⟨rfl, rfl, rfl⟩ o ?_
  have hmap (r : Registry Position) : r.entries.zipIdx.map (fun x => x.1.1) = r.names := by
    have hfst := congrArg (List.map Prod.fst) (List.zipIdx_map_fst 0 r.entries)
    rw [List.map_map, Registry.map_fst_entries] at hfst
    exact hfst
  rw [hmap, hmap, h]

/-- A layout under which every variable in use takes the first free address. -/
structure FirstFree (layout : Layout) : Prop where
  kind : layout.kind = .staticAuto
  balance : layout.balance = .incremental

theorem FirstFree.assign_eq {layout : Layout} (h : layout.FirstFree) (code : List Line)
    (o : Options) : layout.assign code o =
      ((firstFree (usedVariables code) o).addresses,
        (firstFree (usedVariables code) o).report ++ .ofList []) := by
  have hnames : layout.names (usedVariables code) = (usedVariables code).entries := by
    unfold names
    rw [h.kind]
  have hkind : layout.kind ≠ .explicit := by
    rw [h.kind]
    decide
  simp only [assign, if_neg hkind, h.balance, hnames, usageMessages, if_pos h.kind]
  rfl

/-- The addresses depend only on the variables that the code uses, and so does whether memory is
    large enough for them. -/
theorem FirstFree.assign_congr {layout layout' : Layout} (h : layout.FirstFree)
    (h' : layout'.FirstFree) {code code' : List Line}
    (hcode : variablesOfLines code' = variablesOfLines code) (o : Options) :
    (layout'.assign code' o).1 = (layout.assign code o).1 ∧
      (layout'.assign code' o).2.hasError = (layout.assign code o).2.hasError := by
  have hnames : (usedVariables code').names = (usedVariables code).names := by
    rw [names_usedVariables, names_usedVariables, hcode]
  have halike := firstFree_congr hnames o
  rw [h.assign_eq, h'.assign_eq]
  refine ⟨halike.addresses, ?_⟩
  rw [Report.hasError_append, Report.hasError_append, halike.report]

end Layout

end MacroAsm
