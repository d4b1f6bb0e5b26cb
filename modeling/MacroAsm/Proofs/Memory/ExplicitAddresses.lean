import MacroAsm.Proofs.Memory.Granting
import MacroAsm.Proofs.Memory.Placement
import Mathlib.Data.List.Nodup

set_option autoImplicit false

/-! # Explicit addresses

A layout with addresses of its own is served in the order of its declarations. An address belongs to
the first one that asks for it (`Layout.claimant?`), as long as it lies in memory; what was refused
in front of a declaration has no part in what becomes of it. So a variable has its address exactly if
the address lies in memory and no earlier declaration asks for it, and otherwise there is one error
(`Layout.assign_explicit`). The invariant of the grants says this of the declarations served so far
(`Layout.Assigned.Claimed`). -/

namespace MacroAsm

/-! ## First uses -/

theorem Registry.find?_insertNew {α : Type} (r : Registry α) (name other : String) (value : α) :
    (r.insertNew name value).find? other =
      (r.find? other).or (if other = name then some value else none) := by
  unfold insertNew
  split
  · next hmem =>
    obtain ⟨v, hv⟩ := Option.isSome_iff_exists.1 (mem_names.1 (contains_eq_true_iff.1 hmem))
    split
    · next heq => rw [heq, hv, Option.some_or]
    · rw [Option.or_none]
  · next hmem =>
    rw [find?_insert]
    split
    · next heq =>
      have hnone : r.find? name = none :=
        Option.not_isSome_iff_eq_none.1 fun h => hmem (contains_eq_true_iff.2 (mem_names.2 h))
      rw [heq, hnone, Option.none_or]
    · rw [Option.or_none]

/-- A variable is first used on the first line that uses it. -/
theorem find?_usedVariables (code : List Line) (name : String) :
    (usedVariables code).find? name =
      (code.find? fun l => (variablesIn l.code).contains name).map Line.position := by
  -- first for the variables of one line, then for all lines, both onto any used before
  have hline : ∀ (p : Position) (names : List String) (used : Registry Position),
      (names.foldl (fun used n => used.insertNew n p) used).find? name =
        (used.find? name).or (if names.contains name then some p else none) := by
    intro p names
    induction names with
    | nil => simp
    | cons n names ih =>
      intro used
      rw [List.foldl_cons, ih, Registry.find?_insertNew, Option.or_assoc, List.contains_cons]
      by_cases h : name = n <;> simp [h]
  have hlines : ∀ used : Registry Position,
      (code.foldl (fun used l =>
        (variablesIn l.code).foldl (fun used n => used.insertNew n l.position) used)
        used).find? name = (used.find? name).or
          ((code.find? fun l => (variablesIn l.code).contains name).map Line.position) := by
    induction code with
    | nil => simp
    | cons l code ih =>
      intro used
      rw [List.foldl_cons, ih, hline, Option.or_assoc, List.find?_cons]
      cases (variablesIn l.code).contains name <;> simp
  rw [usedVariables, hlines, Registry.find?_empty, Option.none_or]

namespace Layout

variable {o : Options}

/-! ## Claims -/

/-- The declaration that an address goes to: the first one that asks for it. -/
def claimant? (ds : List Declaration) (a : Nat) : Option Declaration :=
  ds.find? fun d => d.address == some a

/-- Why a declaration is refused its address, given the ones in front of it. -/
def refused? (o : Options) (front : List Declaration) (d : Declaration) : Option AllocationError :=
  d.address.bind fun a =>
    if o.memorySize ≤ a then some (.outOfRange d.name a (o.memorySize - 1))
    else (claimant? front a).map fun e => .overlapped d.name a e.name

/-- The errors for the declarations that are refused their addresses, given the ones in front of
    them. -/
def refusalsBehind (o : Options) (front : List Declaration) : List Declaration → List Message
  | [] => []
  | d :: ds => ((refused? o front d).map (allocationMessage d.position)).toList ++
      refusalsBehind o (front ++ [d]) ds

theorem claimant?_append (ds : List Declaration) (d : Declaration) (a : Nat) :
    claimant? (ds ++ [d]) a =
      (claimant? ds a).or (if d.address = some a then some d else none) := by
  unfold claimant?
  rw [List.find?_append, List.find?_singleton]
  simp only [beq_iff_eq]

theorem claimant?_append_of_ne {ds : List Declaration} {d : Declaration} {a b : Nat}
    (hd : d.address = some a) (h : b ≠ a) : claimant? (ds ++ [d]) b = claimant? ds b := by
  have hne : d.address ≠ some b := by
    rw [hd]
    exact fun heq => h (Option.some.inj heq).symm
  rw [claimant?_append, if_neg hne, Option.or_none]

theorem mem_of_claimant? {ds : List Declaration} {a : Nat} {d : Declaration}
    (h : claimant? ds a = some d) : d ∈ ds ∧ d.address = some a := by
  unfold claimant? at h
  exact ⟨List.mem_of_find?_eq_some h, by simpa using List.find?_some h⟩

theorem claimant?_eq_none {ds : List Declaration} {a : Nat} :
    claimant? ds a = none ↔ ∀ d ∈ ds, d.address ≠ some a := by
  unfold claimant?
  rw [List.find?_eq_none]
  simp only [beq_iff_eq, ne_eq]

/-- The first declaration of an address owns it, whatever is declared behind. -/
theorem claimant?_of_notMem {front behind : List Declaration} {d : Declaration} {a : Nat}
    (hd : d.address = some a) (h : ∀ e ∈ front, e.address ≠ some a) :
    claimant? (front ++ d :: behind) a = some d := by
  have hnone : claimant? front a = none := claimant?_eq_none.2 h
  unfold claimant? at hnone ⊢
  rw [List.find?_append, hnone, Option.none_or, List.find?_cons_of_pos (by simp [hd])]

/-- An address that is owned keeps its owner, whatever is declared behind. -/
theorem claimant?_append_of_eq_some {front : List Declaration} {e : Declaration} {a : Nat}
    (h : claimant? front a = some e) (behind : List Declaration) :
    claimant? (front ++ behind) a = some e := by
  unfold claimant? at h ⊢
  rw [List.find?_append, h, Option.some_or]

/-! ## Grants -/

/-- The declarations so far have been served: memory is whole, every address of it has the owner that
    claimed it first, and the variables have the addresses that they own. -/
structure Assigned.Claimed (o : Options) (ds : List Declaration) (s : Assigned) : Prop where
  last_eq : s.memory.last = o.memorySize - 1
  whole : s.memory.Whole
  owner?_eq : ∀ a < o.memorySize, s.memory.owner? a = (claimant? ds a).map Declaration.name
  find?_iff : ∀ {name : String} {w : UInt16}, s.addresses.find? name = some w ↔
    w.toNat < o.memorySize ∧ ∃ d, claimant? ds w.toNat = some d ∧ d.name = name

variable {s : Assigned} {ds : List Declaration} {d : Declaration} {a : Nat}

theorem claimed_start (o : Options) :
    Assigned.Claimed o [] ⟨.empty, .ofSize o.memorySize, .empty⟩ where
  last_eq := rfl
  whole := Allocator.whole_ofSize o.memorySize
  owner?_eq := fun a _ => by simp [claimant?]
  find?_iff := by simp [claimant?]

/-- A declaration that is refused leaves everything but the report as it was. -/
theorem Assigned.Claimed.refuse (h : s.Claimed o ds) (hd : d.address = some a)
    (hrefused : o.memorySize ≤ a ∨ ∃ e, claimant? ds a = some e) (report : Report) :
    Assigned.Claimed o (ds ++ [d]) { s with report } := by
  have hsame : ∀ b < o.memorySize, claimant? (ds ++ [d]) b = claimant? ds b := by
    intro b hb
    by_cases hba : b = a
    · subst hba
      rcases hrefused with hout | ⟨e, he⟩
      · omega
      · rw [claimant?_append, he, Option.some_or]
    · exact claimant?_append_of_ne hd hba
  refine ⟨h.last_eq, h.whole, fun b hb => ?_, fun {name w} => ?_⟩
  · rw [hsame b hb]
    exact h.owner?_eq b hb
  · refine h.find?_iff.trans (and_congr_right fun hw => ?_)
    rw [hsame _ hw]

/-- A declaration whose address is free has it afterwards. -/
theorem Assigned.Claimed.grant (h : s.Claimed o ds) (ho : o.Valid)
    (hname : d.name ∉ ds.map Declaration.name) (hd : d.address = some a) (ha : a < o.memorySize)
    (hfree : claimant? ds a = none) {memory : Allocator} (hgrants : s.memory.Grants d.name a memory) :
    Assigned.Claimed o (ds ++ [d])
      { s with addresses := s.addresses.insert d.name (UInt16.ofNat a), memory } := by
  have hword := toNat_ofNat_of_lt ho ha
  have hnew : claimant? (ds ++ [d]) a = some d := by
    rw [claimant?_append, hfree, if_pos hd, Option.none_or]
  refine ⟨hgrants.last_eq.trans h.last_eq, hgrants.whole h.whole, fun b hb => ?_,
    fun {name w} => ?_⟩
  · show memory.owner? b = _
    rw [hgrants.owner?]
    by_cases hba : b = a
    · rw [if_pos hba, hba, hnew, Option.map_some]
    · rw [if_neg hba, claimant?_append_of_ne hd hba, h.owner?_eq b hb]
  · show (s.addresses.insert d.name (UInt16.ofNat a)).find? name = some w ↔ _
    rw [Registry.find?_insert]
    by_cases hwa : w.toNat = a
    · -- the address was free, so no other variable has it
      obtain rfl : w = UInt16.ofNat a := UInt16.toNat_inj.1 (hwa.trans hword.symm)
      rw [hword, hnew]
      split
      · next heq =>
        simp [ha, heq]
      · next hne =>
        refine iff_of_false (fun hfind => ?_) ?_
        · obtain ⟨-, e, he, -⟩ := h.find?_iff.1 hfind
          rw [hword, hfree] at he
          cases he
        · rintro ⟨-, e, he, hname'⟩
          obtain rfl := Option.some.inj he
          exact hne hname'.symm
    · -- the name is new, so it has no other address
      rw [claimant?_append_of_ne hd hwa]
      split
      · next heq =>
        refine iff_of_false (fun hsome => ?_) ?_
        · exact hwa ((congrArg UInt16.toNat (Option.some.inj hsome)).symm.trans hword)
        · rintro ⟨-, e, he, hname'⟩
          exact hname (heq ▸ hname' ▸ List.mem_map_of_mem (mem_of_claimant? he).1)
      · exact h.find?_iff

/-- One more declaration is served or refused. -/
theorem Assigned.Claimed.grantExplicit (h : s.Claimed o ds) (ho : o.Valid)
    (hname : d.name ∉ ds.map Declaration.name) (hd : d.address = some a) :
    (s.grantExplicit d).Claimed o (ds ++ [d]) ∧
      (s.grantExplicit d).report.toList = s.report.toList ++
        ((refused? o ds d).map (allocationMessage d.position)).toList := by
  have hlast := h.last_eq
  have hsize := ho.memorySize.1
  rcases Nat.lt_or_ge a o.memorySize with ha | ha
  · have hin : a ≤ s.memory.last := by omega
    have hinside : ¬ o.memorySize ≤ a := by omega
    cases hclaim : claimant? ds a with
    | some e =>
      have howner : s.memory.owner? a = some e.name := by
        rw [h.owner?_eq a ha, hclaim, Option.map_some]
      have hgrant : s.grantExplicit d = { s with
          report := s.report.push
            (allocationMessage d.position (.overlapped d.name a e.name)) } := by
        simp [Assigned.grantExplicit, hd, Allocator.grant_of_owner howner, Except.map, Assigned.note]
      rw [hgrant]
      exact ⟨h.refuse hd (.inr ⟨e, hclaim⟩) _, by simp [refused?, hd, hinside, hclaim]⟩
    | none =>
      have howner : s.memory.owner? a = none := by rw [h.owner?_eq a ha, hclaim, Option.map_none]
      obtain ⟨memory, hok, hgrants⟩ := h.whole.exists_grant hin howner d.name
      have hgrant : s.grantExplicit d = { s with
          addresses := s.addresses.insert d.name (UInt16.ofNat a), memory } := by
        simp [Assigned.grantExplicit, hd, hok, Except.map, Assigned.note]
      rw [hgrant]
      exact ⟨h.grant ho hname hd ha hclaim hgrants, by simp [refused?, hd, hinside, hclaim]⟩
  · have hout : s.memory.last < a := by omega
    have herror : s.memory.grant a d.name = .error (.outOfRange d.name a (o.memorySize - 1)) := by
      rw [h.whole.grant_of_lt hout, hlast]
    have hgrant : s.grantExplicit d = { s with
        report := s.report.push
          (allocationMessage d.position (.outOfRange d.name a (o.memorySize - 1))) } := by
      simp [Assigned.grantExplicit, hd, herror, Except.map, Assigned.note]
    rw [hgrant]
    exact ⟨h.refuse hd (.inl ha) _, by simp [refused?, hd, ha]⟩

/-- All declarations are served or refused, one after the other. -/
theorem Assigned.Claimed.foldl (ho : o.Valid) {front : List Declaration} (h : s.Claimed o front)
    (hnames : ((front ++ ds).map Declaration.name).Nodup)
    (haddress : ∀ d ∈ ds, d.address.isSome = true) :
    (ds.foldl Assigned.grantExplicit s).Claimed o (front ++ ds) ∧
      (ds.foldl Assigned.grantExplicit s).report.toList =
        s.report.toList ++ refusalsBehind o front ds := by
  induction ds generalizing s front with
  | nil => exact ⟨by rwa [List.append_nil], by simp [refusalsBehind]⟩
  | cons d ds ih =>
    have hsplit : front ++ d :: ds = front ++ [d] ++ ds := by simp
    obtain ⟨a, ha⟩ := Option.isSome_iff_exists.1 (haddress d List.mem_cons_self)
    have hname : d.name ∉ front.map Declaration.name := by
      rw [List.map_append, List.nodup_append] at hnames
      exact fun hmem => hnames.2.2 d.name hmem d.name (by simp) rfl
    obtain ⟨hserved, hreport⟩ := h.grantExplicit ho hname ha
    rw [hsplit] at hnames ⊢
    obtain ⟨hclaimed, hrest⟩ := ih hserved hnames fun e he => haddress e (List.mem_cons_of_mem d he)
    refine ⟨hclaimed, ?_⟩
    rw [List.foldl_cons, hrest, hreport, refusalsBehind, List.append_assoc]

/-- A declared variable has the address that its declaration owns. -/
theorem Assigned.Claimed.find?_name (h : s.Claimed o ds) (hnames : (ds.map Declaration.name).Nodup)
    (hd : d ∈ ds) {w : UInt16} :
    s.addresses.find? d.name = some w ↔
      w.toNat < o.memorySize ∧ claimant? ds w.toNat = some d := by
  refine h.find?_iff.trans (and_congr_right fun _ => ⟨?_, fun hw => ⟨d, hw, rfl⟩⟩)
  rintro ⟨e, he, hname⟩
  rwa [← List.inj_on_of_nodup_map hnames (mem_of_claimant? he).1 hd hname]

/-! ## One declaration among the others -/

section Served

variable {front behind : List Declaration}

/-- A variable has no address but the one that its declaration asks for and owns. -/
theorem Assigned.Claimed.of_find? (h : s.Claimed o ds) (hnames : (ds.map Declaration.name).Nodup)
    (hd : d ∈ ds) (ha : d.address = some a) {w : UInt16} (hw : s.addresses.find? d.name = some w) :
    a < o.memorySize ∧ claimant? ds a = some d := by
  obtain ⟨hlt, hown⟩ := (h.find?_name hnames hd).1 hw
  have heq : some a = some w.toNat := ha.symm.trans (mem_of_claimant? hown).2
  rw [Option.some.inj heq]
  exact ⟨hlt, hown⟩

/-- An address that no earlier declaration asks for is given. -/
theorem Assigned.Claimed.served (h : s.Claimed o (front ++ d :: behind)) (ho : o.Valid)
    (ha : d.address = some a) (hin : a < o.memorySize) (hfront : ∀ e ∈ front, e.address ≠ some a) :
    refused? o front d = none ∧ ∃ w, s.addresses.find? d.name = some w ∧ w.toNat = a := by
  have hword := toNat_ofNat_of_lt ho hin
  refine ⟨by simp [refused?, ha, hin, claimant?_eq_none.2 hfront], .ofNat a, ?_, hword⟩
  rw [h.find?_iff, hword]
  exact ⟨hin, d, claimant?_of_notMem ha hfront, rfl⟩

/-- An address outside of memory is refused. -/
theorem Assigned.Claimed.outside (h : s.Claimed o (front ++ d :: behind))
    (hnames : ((front ++ d :: behind).map Declaration.name).Nodup) (ha : d.address = some a)
    (hout : o.memorySize ≤ a) :
    s.addresses.find? d.name = none ∧
      refused? o front d = some (.outOfRange d.name a (o.memorySize - 1)) := by
  refine ⟨Option.eq_none_iff_forall_ne_some.2 fun w hw => ?_, by simp [refused?, ha, hout]⟩
  have hin := (h.of_find? hnames (by simp) ha hw).1
  omega

/-- An address that an earlier declaration asks for is refused; the first of these has it. -/
theorem Assigned.Claimed.overlapped (h : s.Claimed o (front ++ d :: behind)) (ho : o.Valid)
    (hnames : ((front ++ d :: behind).map Declaration.name).Nodup) (ha : d.address = some a)
    (hin : a < o.memorySize) (htaken : ∃ e ∈ front, e.address = some a) :
    s.addresses.find? d.name = none ∧
      ∃ e ∈ front, (∃ w, s.addresses.find? e.name = some w ∧ w.toNat = a) ∧
        refused? o front d = some (.overlapped d.name a e.name) := by
  obtain ⟨e', he', hea⟩ := htaken
  obtain ⟨e, he⟩ : ∃ e, claimant? front a = some e :=
    Option.ne_none_iff_exists'.1 fun hnone => claimant?_eq_none.1 hnone e' he' hea
  have hmem := (mem_of_claimant? he).1
  have hown := claimant?_append_of_eq_some he (d :: behind)
  have hword := toNat_ofNat_of_lt ho hin
  refine ⟨Option.eq_none_iff_forall_ne_some.2 fun w hw => ?_, e, hmem,
    ⟨.ofNat a, h.find?_iff.2 ⟨?_, e, ?_, rfl⟩, hword⟩, by simp [refused?, ha, hin, he]⟩
  · -- the variable would have the name of the one in front that owns the address
    obtain rfl := Option.some.inj (hown.symm.trans (h.of_find? hnames (by simp) ha hw).2)
    rw [List.map_append, List.nodup_append] at hnames
    exact hnames.2.2 e.name (List.mem_map_of_mem hmem) e.name (by simp) rfl
  · rwa [hword]
  · rwa [hword]

end Served

/-! ## The whole assignment -/

/-- The declarations of a file have different names. -/
theorem nodup_declarations_find (main : List Line) :
    ((find main).1.declarations.map Declaration.name).Nodup := by
  rcases find_cases main with h | ⟨b, h⟩
  · rw [h]
    exact List.nodup_nil
  · rw [h]
    exact nodup_readDeclarations b.kind b.lines.reverse

/-- What is said about the use of variables under a layout that declares them. -/
theorem usageMessages_eq {layout : Layout} (hkind : layout.kind ≠ .staticAuto)
    (used : Registry Position) :
    layout.usageMessages used =
      (used.entries.filter fun u => u.1 ∉ layout.declarations.map Declaration.name).map
          (fun u => undeclaredMessage layout u.1 u.2) ++
        (layout.declarations.filter fun d => d.name ∉ used.names).map unusedMessage := by
  have hdeclared (name : String) : (!layout.declaredNames.contains name) =
      decide (name ∉ layout.declarations.map Declaration.name) := by
    rw [Bool.eq_iff_iff, Bool.not_eq_true', decide_eq_true_iff, ← mem_declaredNames,
      Bool.not_eq_true]
  have hused (name : String) : (!used.contains name) = decide (name ∉ used.names) := by
    rw [Bool.eq_iff_iff, Bool.not_eq_true', decide_eq_true_iff, ← Registry.contains_eq_true_iff,
      Bool.not_eq_true]
  simp only [usageMessages, if_neg hkind, hdeclared, hused]

/-- What becomes of the variables of a layout that gives addresses of its own, and what is reported. -/
structure ServedInOrder (o : Options) (layout : Layout) (code : List Line) : Prop where
  addressed : ∀ d ∈ layout.declarations, ∃ a, d.address = some a
  /-- A variable has the address that it asks for, if that lies in memory and no earlier declaration
      asks for it. -/
  granted : ∀ {front behind : List Declaration} {d : Declaration} {a : Nat},
    layout.declarations = front ++ d :: behind → d.address = some a → a < o.memorySize →
    (∀ e ∈ front, e.address ≠ some a) →
    refused? o front d = none ∧ ∃ w, (layout.assign code o).1.find? d.name = some w ∧ w.toNat = a
  outside : ∀ {front behind : List Declaration} {d : Declaration} {a : Nat},
    layout.declarations = front ++ d :: behind → d.address = some a → o.memorySize ≤ a →
    (layout.assign code o).1.find? d.name = none ∧
      refused? o front d = some (.outOfRange d.name a (o.memorySize - 1))
  /-- An address that an earlier declaration asks for is refused, and the variable that has it is
      named. -/
  overlapped : ∀ {front behind : List Declaration} {d : Declaration} {a : Nat},
    layout.declarations = front ++ d :: behind → d.address = some a → a < o.memorySize →
    (∃ e ∈ front, e.address = some a) →
    (layout.assign code o).1.find? d.name = none ∧
      ∃ e ∈ front, (∃ w, (layout.assign code o).1.find? e.name = some w ∧ w.toNat = a) ∧
        refused? o front d = some (.overlapped d.name a e.name)
  declared : ∀ name ∈ (layout.assign code o).1.names, name ∈ layout.declarations.map Declaration.name
  /-- The refusals, what is used and not declared, and what is declared and not used. -/
  report : (layout.assign code o).2.toList =
    refusalsBehind o [] layout.declarations ++
      (((usedVariables code).entries.filter fun u =>
            u.1 ∉ layout.declarations.map Declaration.name).map
          (fun u => undeclaredMessage layout u.1 u.2) ++
        (layout.declarations.filter fun d => d.name ∉ (usedVariables code).names).map unusedMessage)
  /-- A variable is in use from the first line on that uses it. -/
  used : ∀ name p, (name, p) ∈ (usedVariables code).entries ↔
    (code.find? fun l => (variablesIn l.code).contains name).map Line.position = some p
  nodup_used : (usedVariables code).names.Nodup
  nodup_declared : (layout.declarations.map Declaration.name).Nodup
  /-- No two variables share an address. -/
  injective : ∀ name name' w, (layout.assign code o).1.find? name = some w →
    (layout.assign code o).1.find? name' = some w → name = name'

/-- **Explicit addresses never collide.** Under the layout of a file that gives addresses, each
    declaration has one. The variable gets it exactly if it lies in memory and no earlier
    declaration asks for it; otherwise the variable gets none, and there is one error at its
    declaration: the address is outside of memory, or it overlaps the variable that holds it, which
    is named. Besides these there is one error for each variable that is used but not declared,
    where it is first used, and one note for each that is declared but not used. No two variables
    share an address. -/
theorem assign_explicit (ho : o.Valid) {main : List Line} (hkind : (find main).1.kind = .explicit)
    (code : List Line) : ServedInOrder o (find main).1 code := by
  have haddress := find_addressed main hkind
  have hnodup := nodup_declarations_find main
  have hnodup' : (([] ++ (find main).1.declarations).map Declaration.name).Nodup := hnodup
  obtain ⟨hclaimed, hreport⟩ := (claimed_start o).foldl ho hnodup' haddress
  rw [List.nil_append] at hclaimed
  generalize (find main).1 = layout at hkind haddress hnodup hclaimed hreport ⊢
  have hassign : layout.assign code o =
      ((layout.declarations.foldl Assigned.grantExplicit
          ⟨.empty, .ofSize o.memorySize, .empty⟩).addresses,
        (layout.declarations.foldl Assigned.grantExplicit
          ⟨.empty, .ofSize o.memorySize, .empty⟩).report ++
            .ofList (layout.usageMessages (usedVariables code))) := by
    rw [assign, if_pos hkind]
  generalize layout.declarations.foldl Assigned.grantExplicit
    ⟨.empty, .ofSize o.memorySize, .empty⟩ = served at hclaimed hreport hassign
  have haddresses : (layout.assign code o).1 = served.addresses := congrArg Prod.fst hassign
  have hfind {name : String} {w : UInt16} : (layout.assign code o).1.find? name = some w ↔
      w.toNat < o.memorySize ∧
        ∃ d, claimant? layout.declarations w.toNat = some d ∧ d.name = name := by
    rw [haddresses]
    exact hclaimed.find?_iff
  constructor
  case addressed => exact fun d hd => Option.isSome_iff_exists.1 (haddress d hd)
  case granted =>
    intro front behind d a hds ha hin hfront
    rw [haddresses]
    exact (hds ▸ hclaimed).served ho ha hin hfront
  case outside =>
    intro front behind d a hds ha hout
    rw [haddresses]
    exact (hds ▸ hclaimed).outside (hds ▸ hnodup) ha hout
  case overlapped =>
    intro front behind d a hds ha hin htaken
    rw [haddresses]
    exact (hds ▸ hclaimed).overlapped ho (hds ▸ hnodup) ha hin htaken
  case declared =>
    intro name hname
    obtain ⟨w, hw⟩ := Option.isSome_iff_exists.1 (Registry.mem_names.1 hname)
    obtain ⟨-, d, hd, rfl⟩ := hfind.1 hw
    exact List.mem_map_of_mem (mem_of_claimant? hd).1
  case report =>
    have hne : layout.kind ≠ .staticAuto := by
      rw [hkind]
      decide
    rw [hassign, Report.toList_append, hreport, Report.toList_ofList, usageMessages_eq hne]
    rfl
  case used =>
    intro name p
    rw [Registry.mem_entries, find?_usedVariables]
  case nodup_used => exact (usedVariables code).nodup_names
  case nodup_declared => exact hnodup
  case injective =>
    intro name name' w h h'
    obtain ⟨-, d, hd, rfl⟩ := hfind.1 h
    obtain ⟨-, d', hd', rfl⟩ := hfind.1 h'
    rw [hd] at hd'
    rw [Option.some.inj hd']

/-- Five variables, of which two ask for the address of the first and one for an address outside of
    memory; the code uses one of them and one that is not declared. -/
def crowdedLines : List Line :=
  Line.ofText "main"
    "#memorylayout explicit\nx 1\ny 1\nz 999\nv 1\nu 0x10\n#end\nmov r1 *u\nmov r1 *q"

theorem assign_crowdedLines :
    Options.default.Valid ∧ (find crowdedLines).1.kind = .explicit ∧
      ((find crowdedLines).1.assign crowdedLines .default).1.entries = [("x", 1), ("u", 16)] ∧
      ((find crowdedLines).1.assign crowdedLines .default).2.toList.map Message.text =
        ["`y` at address 1 overlaps `x`", "`z` at address 999 is outside of memory [0, 255]",
          "`v` at address 1 overlaps `x`", "Variable `q` is used but not declared",
          "Variable `x` is declared but never used", "Variable `y` is declared but never used",
          "Variable `z` is declared but never used", "Variable `v` is declared but never used"] ∧
      ∀ name name' w,
        ((find crowdedLines).1.assign crowdedLines .default).1.find? name = some w →
        ((find crowdedLines).1.assign crowdedLines .default).1.find? name' = some w →
        name = name' := by
  have ho : Options.default.Valid := Options.validate_eq_ok_iff.1 (by decide)
  have hkind : (find crowdedLines).1.kind = .explicit := by decide +kernel
  exact ⟨ho, hkind, by decide +kernel, by decide +kernel,
    (assign_explicit ho hkind crowdedLines).injective⟩

end Layout

end MacroAsm
