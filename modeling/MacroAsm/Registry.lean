import Std.Data.TreeMap.Lemmas

set_option autoImplicit false

/-! # Registries

Names with values, in the order in which the names were first entered. Entering a name again
replaces its value and leaves its place. A registry is read through `find?` and `names`.

The values are kept in a search tree, and the order beside it; the names of both are the same, and
none stands twice in the order. -/

namespace MacroAsm

/-- Names with values, and the names in the order in which they were first entered. -/
structure Registry (α : Type) where
  order : Array String
  table : Std.TreeMap String α
  mem_order : ∀ name, name ∈ order ↔ name ∈ table
  nodup_order : order.toList.Nodup

namespace Registry

variable {α : Type}

/-- The registry without names. -/
def empty : Registry α where
  order := #[]
  table := ∅
  mem_order := by simp
  nodup_order := by simp

/-- The value of a name. -/
def find? (r : Registry α) (name : String) : Option α :=
  r.table[name]?

/-- The names, first entered first. -/
def names (r : Registry α) : List String :=
  r.order.toList

/-- How many names there are. -/
def size (r : Registry α) : Nat :=
  r.order.size

/-- Whether a name has a value. -/
def contains (r : Registry α) (name : String) : Bool :=
  r.table.contains name

/-- The names with their values, first entered first. -/
def entries (r : Registry α) : List (String × α) :=
  r.names.filterMap fun name => (r.find? name).map fun value => (name, value)

/-- The values, in the order of their names. -/
def values (r : Registry α) : List α :=
  r.names.filterMap r.find?

/-- Enter a value; it replaces the one its name had. -/
def insert (r : Registry α) (name : String) (value : α) : Registry α where
  order := if name ∈ r.table then r.order else r.order.push name
  table := r.table.insert name value
  mem_order := by
    intro other
    have h := r.mem_order other
    rw [Std.TreeMap.mem_insert]
    split
    · next hn =>
      rw [h, Std.LawfulEqCmp.compare_eq_iff_eq]
      exact ⟨.inr, fun ho => ho.elim (fun he => he ▸ hn) id⟩
    · rw [Array.mem_push, h, Std.LawfulEqCmp.compare_eq_iff_eq, or_comm, eq_comm]
  nodup_order := by
    split
    · exact r.nodup_order
    · next hn =>
      rw [Array.toList_push, List.nodup_append]
      refine ⟨r.nodup_order, by simp, fun a ha b hb => ?_⟩
      rintro rfl
      obtain rfl := List.mem_singleton.1 hb
      exact hn ((r.mem_order a).1 (Array.mem_toList_iff.1 ha))

/-- Enter a value unless its name has one. -/
def insertNew (r : Registry α) (name : String) (value : α) : Registry α :=
  if r.contains name then r else r.insert name value

/-! ## Laws -/

@[simp] theorem find?_empty (name : String) : (empty : Registry α).find? name = none := by
  simp [find?, empty]

@[simp] theorem names_empty : (empty : Registry α).names = [] := rfl

@[simp] theorem values_empty : (empty : Registry α).values = [] := rfl

theorem find?_insert (r : Registry α) (name other : String) (value : α) :
    (r.insert name value).find? other = if other = name then some value else r.find? other := by
  simp only [find?, insert, Std.TreeMap.getElem?_insert, Std.LawfulEqCmp.compare_eq_iff_eq]
  by_cases h : name = other
  · simp [h]
  · simp [h, Ne.symm h]

/-- A name has a value exactly when it was entered. -/
theorem mem_names {r : Registry α} {name : String} :
    name ∈ r.names ↔ (r.find? name).isSome = true := by
  rw [names, Array.mem_toList_iff, r.mem_order, find?, Std.TreeMap.isSome_getElem?_iff_mem]

theorem names_insert_of_mem {r : Registry α} {name : String} (h : name ∈ r.names) (value : α) :
    (r.insert name value).names = r.names := by
  have h' : name ∈ r.table := (r.mem_order name).1 (Array.mem_toList_iff.1 h)
  simp [names, insert, h']

theorem names_insert_of_not_mem {r : Registry α} {name : String} (h : name ∉ r.names) (value : α) :
    (r.insert name value).names = r.names ++ [name] := by
  have h' : name ∉ r.table := fun ht => h (Array.mem_toList_iff.2 ((r.mem_order name).2 ht))
  simp [names, insert, h']

/-- No name was entered twice. -/
theorem nodup_names (r : Registry α) : r.names.Nodup :=
  r.nodup_order

theorem mem_entries {r : Registry α} {name : String} {value : α} :
    (name, value) ∈ r.entries ↔ r.find? name = some value := by
  unfold entries
  constructor
  · intro h
    obtain ⟨other, -, ho⟩ := List.mem_filterMap.1 h
    obtain ⟨v, hv, he⟩ := Option.map_eq_some_iff.1 ho
    obtain ⟨rfl, rfl⟩ := Prod.mk.inj he
    exact hv
  · intro h
    refine List.mem_filterMap.2 ⟨name, mem_names.2 (by simp [h]), ?_⟩
    rw [h, Option.map_some]

theorem mem_values {r : Registry α} {value : α} :
    value ∈ r.values ↔ ∃ name, r.find? name = some value := by
  unfold values
  constructor
  · intro h
    obtain ⟨name, -, hv⟩ := List.mem_filterMap.1 h
    exact ⟨name, hv⟩
  · rintro ⟨name, h⟩
    exact List.mem_filterMap.2 ⟨name, mem_names.2 (by simp [h]), h⟩

/-- After an entry the values are the one entered and some of those before. -/
theorem mem_values_insert {r : Registry α} {name : String} {value v : α}
    (h : v ∈ (r.insert name value).values) : v = value ∨ v ∈ r.values := by
  obtain ⟨other, ho⟩ := mem_values.1 h
  rw [find?_insert] at ho
  split at ho
  · exact .inl (Option.some.inj ho).symm
  · exact .inr (mem_values.2 ⟨other, ho⟩)

/-- The names stand in the entries in the order in which they were entered. -/
theorem map_fst_entries (r : Registry α) : r.entries.map Prod.fst = r.names := by
  have hall : ∀ names : List String, (∀ name ∈ names, (r.find? name).isSome = true) →
      (names.filterMap fun name => (r.find? name).map fun value => (name, value)).map Prod.fst =
        names := by
    intro names
    induction names with
    | nil => exact fun _ => rfl
    | cons name names ih =>
      intro h
      obtain ⟨v, hv⟩ := Option.isSome_iff_exists.1 (h name List.mem_cons_self)
      rw [List.filterMap_cons_some (by rw [hv, Option.map_some]), List.map_cons]
      rw [ih fun other ho => h other (List.mem_cons_of_mem name ho)]
  exact hall r.names fun name h => mem_names.1 h

/-- When no two names share a value, no value stands twice in the entries. -/
theorem nodup_map_snd_entries {r : Registry α}
    (h : ∀ {name name' value}, r.find? name = some value → r.find? name' = some value →
      name = name') : (r.entries.map Prod.snd).Nodup := by
  have hnames : (r.entries.map Prod.fst).Nodup := by
    rw [map_fst_entries]
    exact r.nodup_names
  rw [List.nodup_iff_pairwise_ne, List.pairwise_map] at hnames ⊢
  refine hnames.imp_of_mem fun {x y} hx hy hne heq => hne ?_
  exact h (mem_entries.1 hx) (heq ▸ mem_entries.1 hy)

end Registry

end MacroAsm
