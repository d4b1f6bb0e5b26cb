import Mathlib.Data.List.TakeDrop
import Mathlib.Data.List.TakeWhile
import MacroAsm.Memory.Assignment
import MacroAsm.Proofs.Memory.Sections

set_option autoImplicit false

/-! # Granted addresses

Both ways to grant an address do the same to memory: the section that holds the address, a free one,
is split there (`Allocator.Grants`). So memory stays whole, the address belongs to a name afterwards,
and nothing else changes. In whole memory the search for a section decides by the owners alone: an
address is granted if it has no owner, and a range is granted the least address that has none
(`Allocator.Whole.grantFirst_cases`). Hence an address never changes hands, and after any sequence of
grants each variable owns its address (`Layout.Assigned.Sound`): addresses lie in memory, and two
variables never share one. -/

namespace MacroAsm

/-! ## An address of its own -/

namespace Allocator

variable {m m' : Allocator} {name : String} {address : Nat}

/-- What a grant does to memory: the first section that holds the address, which is free, is split
    there. -/
inductive Grants (m : Allocator) (name : String) (address : Nat) : Allocator → Prop
  | split {before after : List Section} {s : Section} (hsections : m.sections = before ++ s :: after)
      (hbefore : ∀ t ∈ before, ¬ t.Holds address) (hholds : s.Holds address)
      (hfree : s.owner = none) :
      Grants m name address { m with sections := before ++ s.split address name ++ after }

theorem Grants.last_eq (h : m.Grants name address m') : m'.last = m.last := by
  cases h
  rfl

theorem Grants.free (h : m.Grants name address m') : m.owner? address = none := by
  cases h with
  | split hsections hbefore hholds hfree => rw [owner?_of_first hsections hbefore hholds, hfree]

theorem Grants.le_last (h : m.Grants name address m') (hm : m.Whole) : address ≤ m.last := by
  cases h with
  | @split before after s hsections hbefore hholds hfree =>
    exact hm.le_last (s := s) (by simp [hsections]) hholds

/-- A grant leaves memory whole. -/
theorem Grants.whole (h : m.Grants name address m') (hm : m.Whole) : m'.Whole := by
  cases h with
  | split hsections hbefore hholds hfree =>
    rw [Whole, hsections] at hm
    exact Section.Partition.split hm hholds name

/-- After a grant its address belongs to the name, and all others to whom they did before. -/
theorem Grants.owner? (h : m.Grants name address m') (b : Nat) :
    m'.owner? b = if b = address then some name else m.owner? b := by
  cases h with
  | @split before after s hsections hbefore hholds hfree =>
    simp only [Allocator.owner?, hsections, List.find?_append, List.find?_cons]
    cases hfind : before.find? fun t => t.Holds b with
    | some t =>
      have hne : b ≠ address := by
        rintro rfl
        exact hbefore t (List.mem_of_find?_eq_some hfind) (by simpa using List.find?_some hfind)
      simp [hne]
    | none =>
      by_cases hb : s.Holds b
      · obtain ⟨t, hpart, howner⟩ := Section.exists_find?_split hholds name hb
        simp [hpart, howner, hb, hfree]
      · have hne : b ≠ address := by
          rintro rfl
          exact hb hholds
        simp [Section.find?_split_of_not_holds hholds name hb, hb, hne]

section Grant

variable {before after : List Section} {s : Section}

/-- The first section that holds an address decides whether it is granted. -/
theorem grant_eq (hsections : m.sections = before ++ s :: after)
    (hbefore : ∀ t ∈ before, ¬ t.Holds address) (hholds : s.Holds address) (name : String) :
    m.grant address name =
      match s.owner with
      | some owner => .error (.overlapped name address owner)
      | none => .ok { m with sections := before ++ s.split address name ++ after } := by
  have hspan : m.sections.span (fun t => ¬ t.Holds address) = (before, s :: after) := by
    have hall : ∀ t ∈ before, decide (¬ t.Holds address) = true := by simpa using hbefore
    rw [List.span_eq_takeWhile_dropWhile, hsections, List.takeWhile_append_of_pos hall,
      List.dropWhile_append_of_pos hall]
    simp [hholds]
  cases howner : s.owner with
  | some owner => simp only [grant, hspan, howner]
  | none => simp only [grant, hspan, howner]

/-- An address that no section holds is outside of memory. -/
theorem grant_eq_error (h : ∀ s ∈ m.sections, ¬ s.Holds address) (name : String) :
    m.grant address name = .error (.outOfRange name address m.last) := by
  have hall : ∀ t ∈ m.sections, decide (¬ t.Holds address) = true := by simpa using h
  have hspan : m.sections.span (fun t => ¬ t.Holds address) = (m.sections, []) := by
    rw [List.span_eq_takeWhile_dropWhile, List.takeWhile_eq_self_iff.2 hall,
      List.dropWhile_eq_nil_iff.2 hall]
  simp only [grant, hspan]

/-- The first section that holds an address, if there is one. -/
theorem exists_first_or_none_holds (m : Allocator) (address : Nat) :
    (∃ before s after, m.sections = before ++ s :: after ∧
      (∀ t ∈ before, ¬ t.Holds address) ∧ s.Holds address) ∨
    ∀ s ∈ m.sections, ¬ s.Holds address := by
  cases hfind : m.sections.find? fun s => s.Holds address with
  | none => exact .inr (by simpa using hfind)
  | some s =>
    obtain ⟨hs, before, after, hsections, hbefore⟩ := List.find?_eq_some_iff_append.1 hfind
    exact .inl ⟨before, s, after, hsections, by simpa using hbefore, by simpa using hs⟩

end Grant

theorem grants_of_grant (h : m.grant address name = .ok m') : m.Grants name address m' := by
  rcases m.exists_first_or_none_holds address with
    ⟨before, s, after, hsections, hbefore, hholds⟩ | hnone
  · rw [grant_eq hsections hbefore hholds] at h
    cases hfree : s.owner with
    | some owner => simp [hfree] at h
    | none =>
      simp only [hfree, Except.ok.injEq] at h
      subst h
      exact .split hsections hbefore hholds hfree
  · rw [grant_eq_error hnone] at h
    cases h

/-- Whole memory refuses an address behind its last one. -/
theorem Whole.grant_of_lt (hm : m.Whole) (ha : m.last < address) (name : String) :
    m.grant address name = .error (.outOfRange name address m.last) :=
  grant_eq_error (fun _ hs hholds => Nat.not_le.2 ha (hm.le_last hs hholds)) name

/-- An address that has an owner is refused, and the owner is named. -/
theorem grant_of_owner {other : String} (ho : m.owner? address = some other) (name : String) :
    m.grant address name = .error (.overlapped name address other) := by
  rcases m.exists_first_or_none_holds address with
    ⟨before, s, after, hsections, hbefore, hholds⟩ | hnone
  · rw [owner?_of_first hsections hbefore hholds] at ho
    rw [grant_eq hsections hbefore hholds, ho]
  · have hfind : m.sections.find? (fun s => s.Holds address) = none := by simpa using hnone
    simp [Allocator.owner?, hfind] at ho

/-- Whole memory grants an address that is free. -/
theorem Whole.exists_grant (hm : m.Whole) (ha : address ≤ m.last) (hfree : m.owner? address = none)
    (name : String) : ∃ m', m.grant address name = .ok m' ∧ m.Grants name address m' := by
  rcases m.exists_first_or_none_holds address with
    ⟨before, s, after, hsections, hbefore, hholds⟩ | hnone
  · rw [owner?_of_first hsections hbefore hholds] at hfree
    refine ⟨_, ?_, .split hsections hbefore hholds hfree⟩
    rw [grant_eq hsections hbefore hholds, hfree]
  · obtain ⟨s, hs, hholds, -⟩ := hm.exists_holds ha
    exact absurd hholds (hnone s hs)

end Allocator

/-! ## The first free address of a range -/

namespace Section

variable {s : Section} {first last b : Nat}

/-- An address of a section and a range is in what they have in common. -/
theorem common_of_holds (hs : s.Holds b) (hfirst : first ≤ b) (hlast : b ≤ last) :
    (s.common first last).1 ≤ b ∧ b ≤ (s.common first last).2 := by
  obtain ⟨h, h'⟩ := hs
  simp only [common]
  omega

/-- What a section and a range have in common begins with an address of both; before it there is no
    address of the range, or the section has not begun. -/
theorem holds_common (h : (s.common first last).1 ≤ (s.common first last).2) :
    s.Holds (s.common first last).1 ∧ first ≤ (s.common first last).1 ∧
      (s.common first last).1 ≤ last ∧ ∀ b, first ≤ b → b < (s.common first last).1 → b < s.first := by
  simp only [common, Holds] at h ⊢
  refine ⟨by omega, by omega, by omega, fun b hb hlt => by omega⟩

end Section

namespace Allocator

variable {m m' : Allocator} {name : String} {address first last : Nat}

/-- The search meets the free sections that have an address in the range, in order. -/
theorem find?_common (ss : List Section) (first last : Nat) :
    (((ss.filter fun s => s.owner.isNone).map fun s => s.common first last).find?
        fun r => r.1 ≤ r.2) =
      (ss.find? fun s => s.owner = none ∧ (s.common first last).1 ≤ (s.common first last).2).map
        fun s => s.common first last := by
  rw [List.find?_map, List.find?_filter]
  simp only [Option.isNone_iff_eq_none, Function.comp_apply, decide_eq_true_eq]

theorem grants_of_grantFirst (h : m.grantFirst first last name = .ok (address, m')) :
    m.Grants name address m' := by
  unfold grantFirst at h
  dsimp only at h
  split at h
  · cases h
  · next found _ _ =>
    cases hgrant : m.grant found name with
    | error e => simp [hgrant, Except.map] at h
    | ok granted =>
      simp only [hgrant, Except.map, Except.ok.injEq, Prod.mk.injEq] at h
      obtain ⟨rfl, rfl⟩ := h
      exact grants_of_grant hgrant

/-- The addresses of a range have owners where the search passes the section that holds them. -/
theorem Whole.owner?_of_passed (hm : m.Whole) {s : Section} (hs : s ∈ m.sections)
    (hpassed : ¬ (s.owner = none ∧ (s.common first last).1 ≤ (s.common first last).2)) {b : Nat}
    (hb : s.Holds b) (hfirst : first ≤ b) (hlast : b ≤ last) : m.owner? b ≠ none := by
  obtain ⟨hle, hle'⟩ := Section.common_of_holds hb hfirst hlast
  rw [hm.owner?_of_mem hs hb]
  exact fun hfree => hpassed ⟨hfree, Nat.le_trans hle hle'⟩

/-- Whole memory grants a range its least free address, and refuses a range that has none. -/
theorem Whole.grantFirst_cases (hm : m.Whole) (first last : Nat) (name : String) :
    (∃ a m', m.grantFirst first last name = .ok (a, m') ∧ m.Grants name a m' ∧ first ≤ a ∧
      a ≤ last ∧ ∀ b, first ≤ b → b < a → m.owner? b ≠ none) ∨
    (m.grantFirst first last name = .error (.full name first last) ∧
      ∀ b, first ≤ b → b ≤ last → b ≤ m.last → m.owner? b ≠ none) := by
  unfold grantFirst
  dsimp only
  rw [find?_common]
  cases hfind : m.sections.find? fun s =>
      s.owner = none ∧ (s.common first last).1 ≤ (s.common first last).2 with
  | none =>
    refine .inr ⟨rfl, fun b hb hlast hbm => ?_⟩
    obtain ⟨s, hs, hholds, -⟩ := hm.exists_holds hbm
    have hpassed := List.find?_eq_none.1 hfind s hs
    exact hm.owner?_of_passed hs (by simpa using hpassed) hholds hb hlast
  | some s =>
    obtain ⟨hs, before, after, hsections, hbefore⟩ := List.find?_eq_some_iff_append.1 hfind
    obtain ⟨hfree, hle⟩ := of_decide_eq_true hs
    obtain ⟨hholds, hfirst, hlast, hbehind⟩ := Section.holds_common hle
    have hmem : s ∈ m.sections := by simp [hsections]
    obtain ⟨m', hgrant, hgrants⟩ := hm.exists_grant (hm.le_last hmem hholds)
      ((hm.owner?_of_mem hmem hholds).trans hfree) name
    refine .inl ⟨(s.common first last).1, m', by simp [hgrant, Except.map], hgrants, hfirst, hlast,
      fun b hb hlt => ?_⟩
    -- a section in front of the one found holds the address, and the search has passed it
    have hpartition : Section.Partition 0 (m.last + 1) (before ++ s :: after) := hsections ▸ hm
    obtain ⟨t, ht, htb⟩ := hpartition.exists_holds_before (Nat.zero_le b) (hbehind b hb hlt)
    have hpassed := of_decide_eq_false (Bool.not_inj (hbefore t ht))
    exact hm.owner?_of_passed (by simp [hsections, ht]) hpassed htb hb
      (Nat.le_trans (Nat.le_of_lt hlt) hlast)

/-- A range is granted its least free address. -/
theorem Whole.exists_grantFirst (hm : m.Whole) (hfirst : first ≤ address) (hlast : address ≤ last)
    (ha : address ≤ m.last) (hfree : m.owner? address = none)
    (hleast : ∀ b, first ≤ b → b < address → m.owner? b ≠ none) (name : String) :
    ∃ m', m.grantFirst first last name = .ok (address, m') ∧ m.Grants name address m' := by
  rcases hm.grantFirst_cases first last name with
    ⟨a, m', hgrant, hgrants, hfirst', -, hleast'⟩ | ⟨-, hfull⟩
  · obtain rfl : a = address := by
      rcases Nat.lt_trichotomy a address with hlt | heq | hgt
      · exact absurd hgrants.free (hleast a hfirst' hlt)
      · exact heq
      · exact absurd hfree (hleast' address hfirst hgt)
    exact ⟨m', hgrant, hgrants⟩
  · exact absurd hfree (hfull address hfirst hlast ha)

/-- A range without a free address is granted nothing. -/
theorem Whole.grantFirst_of_owned (hm : m.Whole)
    (h : ∀ b, first ≤ b → b ≤ last → b ≤ m.last → m.owner? b ≠ none) (name : String) :
    m.grantFirst first last name = .error (.full name first last) := by
  rcases hm.grantFirst_cases first last name with
    ⟨a, m', -, hgrants, hfirst, hlast, -⟩ | ⟨herror, -⟩
  · exact absurd hgrants.free (h a hfirst hlast (hgrants.le_last hm))
  · exact herror

end Allocator

/-! ## All grants -/

namespace Layout

open Allocator (Grants)

/-- Memory keeps its size and stays whole, and every variable owns its address in it. -/
structure Assigned.Sound (last : Nat) (s : Assigned) : Prop where
  last_eq : s.memory.last = last
  whole : s.memory.Whole
  le_last : ∀ {name a}, s.addresses.find? name = some a → a.toNat ≤ last
  owner : ∀ {name a}, s.addresses.find? name = some a → s.memory.owner? a.toNat = some name

variable {last : Nat} {s : Assigned}

/-- An address belongs to one variable only. -/
theorem Assigned.Sound.injective (hs : s.Sound last) {name name' : String} {a : UInt16}
    (h : s.addresses.find? name = some a) (h' : s.addresses.find? name' = some a) :
    name = name' := by
  have howner := hs.owner h
  rw [hs.owner h'] at howner
  exact (Option.some.inj howner).symm

/-- Memory is small enough that no address loses digits when it becomes a word. -/
theorem Assigned.Sound.note (hs : s.Sound last) (hlast : last < 65536) {name : String}
    (p : Position) {granted : Except AllocationError (Nat × Allocator)}
    (hg : ∀ a m, granted = .ok (a, m) → s.memory.Grants name a m) :
    (s.note name p granted).Sound last := by
  match granted with
  | .error e => exact ⟨hs.last_eq, hs.whole, hs.le_last, hs.owner⟩
  | .ok (address, memory) =>
    have hgrant := hg address memory rfl
    have hle : address ≤ last := hs.last_eq ▸ hgrant.le_last hs.whole
    have hword : (UInt16.ofNat address).toNat = address := by
      rw [UInt16.toNat_ofNat']
      omega
    refine ⟨hgrant.last_eq.trans hs.last_eq, hgrant.whole hs.whole, fun {other a} h => ?_,
      fun {other a} h => ?_⟩
    · simp only [Assigned.note, Registry.find?_insert] at h
      split at h
      · obtain rfl := Option.some.inj h
        omega
      · exact hs.le_last h
    · simp only [Assigned.note, Registry.find?_insert] at h ⊢
      rw [hgrant.owner?]
      split at h
      · next hname =>
        obtain rfl := Option.some.inj h
        rw [if_pos hword, hname]
      · -- the address was owned before, so it is not the one that was free
        have howner := hs.owner h
        have hne : a.toNat ≠ address := by
          intro he
          rw [he, hgrant.free] at howner
          simp at howner
        rw [if_neg hne, howner]

theorem Assigned.Sound.grantExplicit (hs : s.Sound last) (hlast : last < 65536) (d : Declaration) :
    (s.grantExplicit d).Sound last := by
  unfold Assigned.grantExplicit
  split
  · exact hs
  · next address _ =>
    refine hs.note hlast _ fun a m h => ?_
    cases hgrant : s.memory.grant address d.name with
    | error e => simp [hgrant, Except.map] at h
    | ok m' =>
      simp only [hgrant, Except.map, Except.ok.injEq, Prod.mk.injEq] at h
      obtain ⟨rfl, rfl⟩ := h
      exact Allocator.grants_of_grant hgrant

theorem Assigned.Sound.grantNext (hs : s.Sound last) (hlast : last < 65536) (balance : Balance)
    (o : Options) (item : (String × Position) × Nat) :
    (s.grantNext balance o item).Sound last := by
  unfold Assigned.grantNext
  refine hs.note hlast _ fun a m h => ?_
  split at h
  · exact Allocator.grants_of_grantFirst h
  · dsimp only at h
    split at h
    · next hbank => exact Allocator.grants_of_grantFirst (hbank.trans h)
    · exact Allocator.grants_of_grantFirst h

/-- A step that keeps variables owners of their addresses may be taken any number of times. -/
theorem Assigned.Sound.foldl {α : Type} {f : Assigned → α → Assigned}
    (hf : ∀ s x, s.Sound last → (f s x).Sound last) (xs : List α) (hs : s.Sound last) :
    (xs.foldl f s).Sound last := by
  induction xs generalizing s with
  | nil => exact hs
  | cons x xs ih => exact ih (hf s x hs)

/-- After all grants each variable owns its address. -/
theorem assign_sound (layout : Layout) (code : List Line) {o : Options}
    (hsize : o.memorySize ≤ 65536) :
    ∃ s : Assigned, s.Sound (o.memorySize - 1) ∧ (layout.assign code o).1 = s.addresses := by
  have hlast : o.memorySize - 1 < 65536 := by omega
  have hstart : Assigned.Sound (o.memorySize - 1) ⟨.empty, .ofSize o.memorySize, .empty⟩ :=
    ⟨rfl, Allocator.whole_ofSize _, by simp, by simp⟩
  refine ⟨_, ?_, rfl⟩
  split
  · exact hstart.foldl (fun s d hs => hs.grantExplicit hlast d) _
  · exact hstart.foldl (fun s item hs => hs.grantNext hlast _ _ item) _

end Layout

end MacroAsm
