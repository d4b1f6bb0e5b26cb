import Mathlib.Data.List.Basic
import MacroAsm.Program.CodeLines
import MacroAsm.Proofs.Memory.Addressed
import MacroAsm.Proofs.Memory.Banks

set_option autoImplicit false

/-! # Placement

The variables of a layout that gives no addresses of its own have the places of their indices, as far
as memory reaches, and there is an error for each that comes behind it (`Layout.assign_placed`). The
layout of a file names no variable twice, so this holds of every file (`Layout.nodup_names_find`). -/

namespace MacroAsm

/-- A name that is new comes behind all others. -/
theorem Registry.entries_insert_of_not_mem {α : Type} {r : Registry α} {name : String}
    (h : name ∉ r.names) (value : α) :
    (r.insert name value).entries = r.entries ++ [(name, value)] := by
  have hother : ∀ other ∈ r.names, (r.insert name value).find? other = r.find? other := by
    intro other hmem
    have hne : other ≠ name := by
      rintro rfl
      exact h hmem
    rw [find?_insert, if_neg hne]
  have hold : r.names.filterMap (fun other =>
      ((r.insert name value).find? other).map fun v => (other, v)) = r.entries :=
    List.filterMap_congr fun other hmem => by rw [hother other hmem]
  have hnew : (r.insert name value).find? name = some value := by rw [find?_insert, if_pos rfl]
  rw [entries, names_insert_of_not_mem h, List.filterMap_append, hold,
    List.filterMap_cons_some (by rw [hnew, Option.map_some]), List.filterMap_nil]

namespace Layout

/-! ## Names of a file -/

/-- Declarations stand under their names. -/
theorem Declarations.name_eq_step {kind : LayoutKind} {ds : Declarations} {l : Line}
    (hds : ∀ {name d}, ds.table.find? name = some d → d.name = name) :
    ∀ {name d}, (ds.step kind l).table.find? name = some d → d.name = name := by
  unfold Declarations.step
  split
  · exact hds
  · split
    · exact hds
    · split
      · exact hds
      · intro name d hd
        rw [Registry.find?_insert] at hd
        split at hd
        · next heq =>
          obtain rfl := Option.some.inj hd
          exact heq.symm
        · exact hds hd

/-- No variable is declared twice. -/
theorem nodup_readDeclarations (kind : LayoutKind) (lines : List Line) :
    ((readDeclarations kind lines).1.map Declaration.name).Nodup := by
  have hname : ∀ name d, (lines.foldl (Declarations.step kind) ⟨.empty, .empty⟩).table.find? name =
      some d → d.name = name :=
    List.foldlRecOn lines (Declarations.step kind)
      (motive := fun ds => ∀ name d, ds.table.find? name = some d → d.name = name) (by simp)
      fun _ hds _ _ _ _ => Declarations.name_eq_step (hds _ _)
  have hnames : (readDeclarations kind lines).1.map Declaration.name =
      (lines.foldl (Declarations.step kind) ⟨.empty, .empty⟩).table.names := by
    rw [readDeclarations, ← Registry.map_fst_entries, Registry.values, Registry.entries,
      List.map_filterMap, List.map_filterMap]
    refine List.filterMap_congr fun name _ => ?_
    rw [Option.map_map]
    cases hd : (lines.foldl (Declarations.step kind) ⟨.empty, .empty⟩).table.find? name with
    | none => rfl
    | some d => exact congrArg some (hname name d hd)
  rw [hnames]
  exact Registry.nodup_names _

/-- The layout of a file places each variable once, whether it is declared or found in the code. -/
theorem nodup_names_find (main code : List Line) :
    (((find main).1.names (usedVariables code)).map Prod.fst).Nodup := by
  have hdeclared : ((find main).1.declarations.map Declaration.name).Nodup := by
    rcases find_cases main with h | ⟨b, h⟩
    · rw [h]
      exact List.nodup_nil
    · rw [h]
      exact nodup_readDeclarations b.kind b.lines.reverse
  rw [map_fst_names, served]
  split
  · exact Registry.nodup_names _
  · exact hdeclared

/-! ## All variables -/

/-- The variables that find room, with their addresses. -/
def placements (o : Options) (balance : Balance) (names : List (String × Position)) :
    List (String × UInt16) :=
  (names.take o.memorySize).zipIdx.map fun x => (x.1.1, UInt16.ofNat (place o balance x.2))

/-- The errors for those that find none. -/
def refusals (o : Options) (names : List (String × Position)) : List Message :=
  (names.drop o.memorySize).map fun x =>
    allocationMessage x.2 (.full x.1 0 (o.memorySize - 1))

section All

variable {o : Options} {balance : Balance} {names : List (String × Position)} {s : Assigned}

/-- Variables have been placed. -/
structure Assigned.Placed (o : Options) (balance : Balance) (names : List (String × Position))
    (s : Assigned) : Prop where
  filled : Filled o balance names.length s.memory
  entries : s.addresses.entries = placements o balance names
  report : s.report.toList = refusals o names

theorem map_fst_placements (o : Options) (balance : Balance) (names : List (String × Position)) :
    (placements o balance names).map Prod.fst = (names.take o.memorySize).map Prod.fst := by
  have hfst := congrArg (List.map Prod.fst) (List.zipIdx_map_fst 0 (names.take o.memorySize))
  rw [List.map_map] at hfst
  rw [placements, List.map_map]
  exact hfst

/-- One more variable is placed, or refused when memory is full. -/
theorem Assigned.Placed.grantNext (h : s.Placed o balance names) (ho : o.Valid) {name : String}
    (hname : name ∉ names.map Prod.fst) (p : Position) :
    (s.grantNext balance o ((name, p), names.length)).Placed o balance (names ++ [(name, p)]) := by
  rcases Nat.lt_or_ge names.length o.memorySize with hk | hk
  · obtain ⟨m', hfilled, heq⟩ := h.filled.grantNext ho hk name p
    have hnew : name ∉ s.addresses.names := by
      rw [← Registry.map_fst_entries, h.entries, map_fst_placements, List.map_take]
      exact fun hmem => hname (List.mem_of_mem_take hmem)
    have htake : names.take o.memorySize = names := List.take_of_length_le (Nat.le_of_lt hk)
    have htake' : (names ++ [(name, p)]).take o.memorySize = names ++ [(name, p)] :=
      List.take_of_length_le (by simpa using Nat.succ_le_of_lt hk)
    have hdrop : names.drop o.memorySize = [] := List.drop_eq_nil_of_le (Nat.le_of_lt hk)
    have hdrop' : (names ++ [(name, p)]).drop o.memorySize = [] :=
      List.drop_eq_nil_of_le (by simpa using Nat.succ_le_of_lt hk)
    rw [heq]
    refine ⟨?_, ?_, ?_⟩
    · rw [List.length_append]
      exact hfilled
    · show (s.addresses.insert name _).entries = _
      rw [Registry.entries_insert_of_not_mem hnew, h.entries, placements, placements, htake, htake',
        List.zipIdx_append, List.map_append, Nat.zero_add]
      rfl
    · show s.report.toList = _
      rw [h.report, refusals, refusals, hdrop, hdrop']
  · have htake : (names ++ [(name, p)]).take o.memorySize = names.take o.memorySize :=
      List.take_append_of_le_length hk
    have hdrop : (names ++ [(name, p)]).drop o.memorySize =
        names.drop o.memorySize ++ [(name, p)] := List.drop_append_of_le_length hk
    have hfull := h.filled.grantNext_of_le ho hk name p
    rw [hfull]
    refine ⟨?_, ?_, ?_⟩
    · -- a variable that is refused has its place behind memory
      refine ⟨h.filled.last_eq, h.filled.whole, fun a ha => (h.filled.owner_iff a ha).trans ?_⟩
      rw [List.length_append, List.length_singleton]
      constructor
      · rintro ⟨i, hi, heq⟩
        exact ⟨i, Nat.lt_succ_of_lt hi, heq⟩
      · rintro ⟨i, -, heq⟩
        obtain ⟨j, hj, heq'⟩ := exists_place ho balance ha
        exact ⟨j, Nat.lt_of_lt_of_le hj hk, heq'⟩
    · show s.addresses.entries = _
      rw [h.entries, placements, placements, htake]
    · show (s.report.push _).toList = _
      rw [Report.toList_push, h.report, refusals, refusals, hdrop, List.map_append]
      rfl

/-- All variables are placed, one after the other. -/
theorem placed_foldl (ho : o.Valid) (balance : Balance) (hnodup : (names.map Prod.fst).Nodup) :
    Assigned.Placed o balance names
      (names.zipIdx.foldl (Assigned.grantNext balance o) ⟨.empty, .ofSize o.memorySize, .empty⟩) := by
  induction names using List.reverseRecOn with
  | nil => exact ⟨filled_ofSize o balance, by simp [placements]; rfl, by simp [refusals]⟩
  | append_singleton names x ih =>
    rw [List.map_append, List.nodup_append] at hnodup
    have hname : x.1 ∉ names.map Prod.fst := fun hmem =>
      hnodup.2.2 x.1 hmem x.1 (by simp) rfl
    rw [List.zipIdx_append, List.foldl_append, Nat.zero_add]
    exact (ih hnodup.1).grantNext ho hname x.2

theorem getElem?_placements {i : Nat} {x : String × Position} (hx : names[i]? = some x)
    (hi : i < o.memorySize) :
    (placements o balance names)[i]? = some (x.1, UInt16.ofNat (place o balance i)) := by
  rw [placements, List.getElem?_map, List.getElem?_zipIdx, List.getElem?_take_of_lt hi, hx,
    Option.map_some, Option.map_some, Nat.zero_add]

/-- A variable that finds no room has no name of those that do. -/
theorem notMem_take_of_le (hnodup : (names.map Prod.fst).Nodup) {i : Nat} {x : String × Position}
    (hx : names[i]? = some x) (hi : o.memorySize ≤ i) :
    x.1 ∉ (names.take o.memorySize).map Prod.fst := by
  have hbehind : x ∈ names.drop o.memorySize := by
    refine List.mem_of_getElem? (i := i - o.memorySize) ?_
    rw [List.getElem?_drop, Nat.add_sub_cancel' hi, hx]
  rw [← List.take_append_drop o.memorySize names, List.map_append, List.nodup_append] at hnodup
  exact fun hmem => hnodup.2.2 x.1 hmem x.1 (List.mem_map_of_mem hbehind) rfl

/-- Where the variables of a layout come to lie that gives no addresses of its own, and what is
    reported. -/
structure PlacedByIndex (o : Options) (layout : Layout) (code : List Line)
    (names : List (String × Position)) : Prop where
  entries : (layout.assign code o).1.entries = placements o layout.balance names
  /-- A variable that finds room has the address that its index says, with all its digits. -/
  found : ∀ {i : Nat} {name : String} {p : Position}, names[i]? = some (name, p) →
    i < o.memorySize → ∃ a, (layout.assign code o).1.find? name = some a ∧
      a.toNat = place o layout.balance i ∧ a.toNat < o.memorySize
  /-- For a variable that finds none there is an error at its position. -/
  refused : ∀ {i : Nat} {name : String} {p : Position}, names[i]? = some (name, p) →
    o.memorySize ≤ i → (layout.assign code o).1.find? name = none ∧
      (refusals o names)[i - o.memorySize]? =
        some (allocationMessage p (.full name 0 (o.memorySize - 1)))
  report : (layout.assign code o).2.toList =
    refusals o names ++ layout.usageMessages (usedVariables code)
  length_refusals : (refusals o names).length = names.length - o.memorySize
  severity_refusals : ∀ m ∈ refusals o names, m.severity = .error
  /-- No bank is empty or leaves memory, and nothing is taken from zero where its end is computed. -/
  banks : ∀ index, 1 ≤ (bank o (o.memorySize - 1) index).1 + bankSize o ∧
    (bank o (o.memorySize - 1) index).1 ≤ (bank o (o.memorySize - 1) index).2 ∧
    (bank o (o.memorySize - 1) index).2 < o.memorySize

/-- **Variables are placed in closed form.** Whatever variables a layout names that gives no addresses
    of its own, those that find room in memory have addresses, in order, and no others do: each has the
    address that its index says, which is no larger than memory and keeps all its digits as a word.
    For each of the others there is one error at its position. No bank is empty or leaves memory, so
    nothing is taken from zero where the end of a bank is computed. -/
theorem assign_placed (ho : o.Valid) {layout : Layout} (hkind : layout.kind ≠ .explicit)
    {code : List Line} (hnames : layout.names (usedVariables code) = names)
    (hnodup : (names.map Prod.fst).Nodup) : PlacedByIndex o layout code names := by
  have hplaced := placed_foldl ho layout.balance hnodup
  have hassign : layout.assign code o =
      ((names.zipIdx.foldl (Assigned.grantNext layout.balance o)
          ⟨.empty, .ofSize o.memorySize, .empty⟩).addresses,
        (names.zipIdx.foldl (Assigned.grantNext layout.balance o)
          ⟨.empty, .ofSize o.memorySize, .empty⟩).report ++
          .ofList (layout.usageMessages (usedVariables code))) := by
    rw [assign, if_neg hkind, hnames]
  constructor
  case entries => rw [hassign, hplaced.entries]
  case found =>
    intro i name p hi hsize
    have hword := toNat_ofNat_of_lt ho (place_lt ho layout.balance hsize)
    refine ⟨_, ?_, hword, by rw [hword]; exact place_lt ho layout.balance hsize⟩
    rw [hassign, ← Registry.mem_entries, hplaced.entries]
    exact List.mem_of_getElem? (getElem?_placements hi hsize)
  case refused =>
    intro i name p hi hsize
    refine ⟨Option.not_isSome_iff_eq_none.1 fun hsome => ?_, ?_⟩
    · have hmem := Registry.mem_names.2 hsome
      rw [hassign, ← Registry.map_fst_entries, hplaced.entries, map_fst_placements] at hmem
      exact notMem_take_of_le hnodup hi hsize hmem
    · rw [refusals, List.getElem?_map, List.getElem?_drop, Nat.add_sub_cancel' hsize, hi]
      rfl
  case report => rw [hassign, Report.toList_append, hplaced.report, Report.toList_ofList]
  case length_refusals => rw [refusals, List.length_map, List.length_drop]
  case severity_refusals =>
    intro m hm
    obtain ⟨x, -, rfl⟩ := List.mem_map.1 hm
    rfl
  case banks => exact bank_bounds ho

end All

/-- Three bytes of memory in two banks of one byte. -/
def threeBytes : Options :=
  { Options.default with memorySize := 3, memoryBlocks := 2 }

/-- Four variables that take turns. -/
def fourVariables : List Line :=
  Line.ofText "main"
    "#memorylayout static auto balanced\nmov &r1, *a\nmov &r1, *b\nmov *c, &r1\nmov *d, &r1"

/-- The third comes behind the banks, and the fourth finds no room. -/
theorem fourVariables_placed :
    ((find fourVariables).1.assign (CodeLines.ofLines fourVariables) threeBytes).1.entries =
        [("a", 0), ("b", 1), ("c", 2)] ∧
      ((find fourVariables).1.assign (CodeLines.ofLines fourVariables) threeBytes).1.find? "d" = none ∧
      ((find fourVariables).1.assign (CodeLines.ofLines fourVariables) threeBytes).2.toList =
        [allocationMessage ⟨"main", 5, "mov *d, &r1"⟩ (.full "d" 0 2)] := by
  have hfacts : (find fourVariables).1.kind ≠ .explicit ∧
      (find fourVariables).1.names (usedVariables (CodeLines.ofLines fourVariables)) =
        [("a", ⟨"main", 2, "mov &r1, *a"⟩), ("b", ⟨"main", 3, "mov &r1, *b"⟩),
          ("c", ⟨"main", 4, "mov *c, &r1"⟩), ("d", ⟨"main", 5, "mov *d, &r1"⟩)] ∧
      (find fourVariables).1.balance = .balanced ∧
      (find fourVariables).1.usageMessages (usedVariables (CodeLines.ofLines fourVariables)) = [] := by
    decide +kernel
  obtain ⟨hkind, hnames, hbalance, husage⟩ := hfacts
  have ho : threeBytes.Valid := Options.validate_eq_ok_iff.1 (by decide)
  have hnodup := nodup_names_find fourVariables (CodeLines.ofLines fourVariables)
  rw [hnames] at hnodup
  have hplaced := assign_placed ho hkind hnames hnodup
  refine ⟨?_, (hplaced.refused (i := 3) rfl (by decide)).1, ?_⟩
  · rw [hplaced.entries, hbalance]
    decide
  · rw [hplaced.report, husage]
    decide

end Layout

end MacroAsm
