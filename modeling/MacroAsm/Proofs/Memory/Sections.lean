import MacroAsm.Memory.Allocator

set_option autoImplicit false

/-! # Sections of memory

The sections of memory follow one another without gaps, from address zero to the last one, and those
with an owner are single bytes (`Allocator.Whole`). So every address of memory lies in one section,
and it has an owner if that section has one (`Allocator.Whole.owner?_of_mem`). Splitting a section
puts its parts in the place of the section (`Section.Partition.split`). -/

namespace MacroAsm

/-! ## Sections one behind the other -/

namespace Section

/-- Sections that follow one another without gaps, from an address on and up to another one that is
    no longer in them; those with an owner are single bytes. -/
def Partition : Nat → Nat → List Section → Prop
  | first, stop, [] => first = stop
  | first, stop, s :: rest =>
    s.first = first ∧ s.first ≤ s.last ∧ (s.owner.isSome = true → s.last = s.first) ∧
      Partition (s.last + 1) stop rest

theorem partition_append {first stop : Nat} {ss ts : List Section} :
    Partition first stop (ss ++ ts) ↔
      ∃ between, Partition first between ss ∧ Partition between stop ts := by
  induction ss generalizing first with
  | nil => simp [Partition]
  | cons s ss ih => simp [Partition, ih, and_assoc]

theorem Partition.le {first stop : Nat} {ss : List Section} (h : Partition first stop ss) :
    first ≤ stop := by
  induction ss generalizing first with
  | nil => exact Nat.le_of_eq h
  | cons s ss ih =>
    obtain ⟨rfl, hle, -, hrest⟩ := h
    have hstop := ih hrest
    omega

/-- No section reaches beyond the two ends. -/
theorem Partition.bounds {first stop : Nat} {ss : List Section} (h : Partition first stop ss)
    {s : Section} (hs : s ∈ ss) : first ≤ s.first ∧ s.last < stop := by
  induction ss generalizing first with
  | nil => simp at hs
  | cons t ss ih =>
    obtain ⟨rfl, hle, -, hrest⟩ := h
    rcases List.mem_cons.1 hs with rfl | hs
    · exact ⟨Nat.le_refl _, hrest.le⟩
    · obtain ⟨hfirst, hlast⟩ := ih hrest hs
      exact ⟨by omega, hlast⟩

/-- Every address between the two ends lies in a section. -/
theorem Partition.exists_holds {first stop address : Nat} {ss : List Section}
    (h : Partition first stop ss) (hfirst : first ≤ address) (hstop : address < stop) :
    ∃ s ∈ ss, s.Holds address := by
  induction ss generalizing first with
  | nil =>
    have hends : first = stop := h
    omega
  | cons s ss ih =>
    obtain ⟨rfl, -, -, hrest⟩ := h
    by_cases hlast : address ≤ s.last
    · exact ⟨s, List.mem_cons_self, hfirst, hlast⟩
    · obtain ⟨t, ht, hholds⟩ := ih hrest (Nat.lt_of_not_le hlast)
      exact ⟨t, List.mem_cons_of_mem s ht, hholds⟩

/-- An address in front of a section lies in one of the sections in front of it. -/
theorem Partition.exists_holds_before {first stop address : Nat} {before after : List Section}
    {s : Section} (h : Partition first stop (before ++ s :: after)) (hfirst : first ≤ address)
    (haddress : address < s.first) : ∃ t ∈ before, t.Holds address := by
  obtain ⟨between, hbefore, rfl, -⟩ := partition_append.1 h
  exact hbefore.exists_holds hfirst haddress

/-- What is left in front of an address. -/
theorem partition_front {first address : Nat} (h : first ≤ address) :
    Partition first address (if first < address then [⟨first, address - 1, none⟩] else []) := by
  by_cases hf : first < address
  · have hlast : first ≤ address - 1 := by omega
    have hstop : address - 1 + 1 = address := by omega
    rw [if_pos hf]
    exact ⟨rfl, hlast, by simp, hstop⟩
  · rw [if_neg hf]
    show first = address
    omega

/-- What is left behind an address. -/
theorem partition_behind {address last : Nat} (h : address ≤ last) :
    Partition (address + 1) (last + 1)
      (if address < last then [⟨address + 1, last, none⟩] else []) := by
  by_cases hl : address < last
  · rw [if_pos hl]
    exact ⟨rfl, hl, by simp, rfl⟩
  · rw [if_neg hl]
    show address + 1 = last + 1
    omega

/-- The parts of a section fill the place of the section. -/
theorem partition_split {s : Section} {address : Nat} (h : s.Holds address) (name : String) :
    Partition s.first (s.last + 1) (s.split address name) := by
  obtain ⟨hfirst, hlast⟩ := h
  unfold split
  refine partition_append.2 ⟨address, partition_front hfirst, ?_⟩
  exact ⟨rfl, Nat.le_refl address, fun _ => rfl, partition_behind hlast⟩

/-- A section may be replaced by its parts. -/
theorem Partition.split {first stop address : Nat} {before after : List Section} {s : Section}
    (h : Partition first stop (before ++ s :: after)) (hs : s.Holds address) (name : String) :
    Partition first stop (before ++ s.split address name ++ after) := by
  obtain ⟨between, hbefore, hfirst, -, -, hafter⟩ := partition_append.1 h
  have hparts := partition_split hs name
  rw [hfirst] at hparts
  exact partition_append.2 ⟨_, partition_append.2 ⟨_, hbefore, hparts⟩, hafter⟩

/-- An address that one section holds is in no other section. -/
theorem Partition.not_holds {first stop address : Nat} {before after : List Section} {s t : Section}
    (h : Partition first stop (before ++ s :: after)) (hs : s.Holds address)
    (ht : t ∈ before ∨ t ∈ after) : ¬ t.Holds address := by
  obtain ⟨between, hbefore, rfl, -, -, hafter⟩ := partition_append.1 h
  obtain ⟨hfirst, hlast⟩ := hs
  intro hholds
  rcases ht with ht | ht
  · have hfront : t.last < s.first := (hbefore.bounds ht).2
    exact absurd (Nat.le_trans hfirst hholds.2) (Nat.not_le.2 hfront)
  · have hbehind : s.last < t.first := (hafter.bounds ht).1
    exact absurd (Nat.le_trans hholds.1 hlast) (Nat.not_le.2 hbehind)

/-- A part of a section does not reach beyond it, and it is free unless it is the byte that was given
    away. -/
theorem of_mem_split {s t : Section} {address b : Nat} {name : String}
    (ht : t ∈ s.split address name) (hs : s.Holds address) (hb : t.Holds b) :
    s.Holds b ∧ t.owner = if b = address then some name else none := by
  simp only [split, List.mem_append, List.mem_cons, List.mem_ite_nil_right, List.not_mem_nil,
    or_false] at ht
  obtain ⟨hfirst, hlast⟩ := hs
  rcases ht with ⟨hfront, rfl⟩ | rfl | ⟨hbehind, rfl⟩
  · have hlt : b ≤ address - 1 := hb.2
    have hne : b ≠ address := by omega
    exact ⟨⟨hb.1, by omega⟩, (if_neg hne).symm⟩
  · have heq : b = address := Nat.le_antisymm hb.2 hb.1
    exact ⟨heq ▸ ⟨hfirst, hlast⟩, (if_pos heq).symm⟩
  · have hgt : address + 1 ≤ b := hb.1
    have hne : b ≠ address := by omega
    exact ⟨⟨by omega, hb.2⟩, (if_neg hne).symm⟩

/-- Each address of a section is found in one of its parts. -/
theorem exists_find?_split {s : Section} {address b : Nat} (hs : s.Holds address) (name : String)
    (hb : s.Holds b) :
    ∃ t, (s.split address name).find? (fun t => t.Holds b) = some t ∧
      t.owner = if b = address then some name else none := by
  obtain ⟨t, ht, hholds⟩ := (partition_split hs name).exists_holds hb.1 (Nat.lt_succ_of_le hb.2)
  cases hfind : (s.split address name).find? fun t => t.Holds b with
  | none => exact absurd hholds (by simpa using List.find?_eq_none.1 hfind t ht)
  | some part =>
    have hpart : part.Holds b := by simpa using List.find?_some hfind
    exact ⟨part, rfl, (of_mem_split (List.mem_of_find?_eq_some hfind) hs hpart).2⟩

/-- Other addresses are found in none of them. -/
theorem find?_split_of_not_holds {s : Section} {address b : Nat} (hs : s.Holds address)
    (name : String) (hb : ¬ s.Holds b) :
    (s.split address name).find? (fun t => t.Holds b) = none := by
  refine List.find?_eq_none.2 fun t ht hholds => hb ?_
  exact (of_mem_split ht hs (by simpa using hholds)).1

end Section

/-! ## Owners -/

namespace Allocator

/-- The name that an address belongs to. -/
def owner? (m : Allocator) (address : Nat) : Option String :=
  (m.sections.find? fun s => s.Holds address).bind Section.owner

/-- The sections fill memory up to its last address. -/
def Whole (m : Allocator) : Prop :=
  Section.Partition 0 (m.last + 1) m.sections

variable {m : Allocator} {before after : List Section} {s : Section} {address : Nat}

/-- Memory of any size is one free section at first. -/
theorem whole_ofSize (size : Nat) : (ofSize size).Whole :=
  ⟨rfl, Nat.zero_le _, by simp, rfl⟩

@[simp] theorem owner?_ofSize (size address : Nat) : (ofSize size).owner? address = none := by
  unfold owner? ofSize
  rw [List.find?_singleton]
  split <;> rfl

/-- The first section that holds an address has the owner of the address. -/
theorem owner?_of_first (hsections : m.sections = before ++ s :: after)
    (hbefore : ∀ t ∈ before, ¬ t.Holds address) (hs : s.Holds address) :
    m.owner? address = s.owner := by
  have hnone : before.find? (fun t => t.Holds address) = none := by simpa using hbefore
  simp only [owner?, hsections, List.find?_append, hnone, Option.none_or, List.find?_cons, hs,
    decide_true, Option.bind_some]

theorem Whole.le_last (hm : m.Whole) (hs : s ∈ m.sections) (ha : s.Holds address) :
    address ≤ m.last := by
  have hlast := (hm.bounds hs).2
  have haddress := ha.2
  omega

/-- In whole memory, each section that holds an address has its owner. -/
theorem Whole.owner?_of_mem (hm : m.Whole) (hs : s ∈ m.sections) (ha : s.Holds address) :
    m.owner? address = s.owner := by
  obtain ⟨before, after, hsections⟩ := List.append_of_mem hs
  have hpartition : Section.Partition 0 (m.last + 1) (before ++ s :: after) := hsections ▸ hm
  exact owner?_of_first hsections (fun t ht => hpartition.not_holds ha (.inl ht)) ha

/-- In whole memory, each address lies in a section with its owner. -/
theorem Whole.exists_holds (hm : m.Whole) (ha : address ≤ m.last) :
    ∃ s ∈ m.sections, s.Holds address ∧ m.owner? address = s.owner := by
  obtain ⟨s, hs, hholds⟩ :=
    Section.Partition.exists_holds hm (Nat.zero_le address) (Nat.lt_succ_of_le ha)
  exact ⟨s, hs, hholds, hm.owner?_of_mem hs hholds⟩

end Allocator

end MacroAsm
