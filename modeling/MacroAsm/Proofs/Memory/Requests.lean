import MacroAsm.Proofs.Memory.Granting

set_option autoImplicit false

/-! # Requests for memory

Names ask for addresses one after another, each for a certain address or for the first free one of a
range. What memory has to answer can be said of a map from addresses to names alone (`Answers`): an
address is granted if it lies in memory and has no name, and the least one of a range is taken. The
allocator keeps a list of sections instead, which it searches and splits. It refines the map all the
same (`Allocator.serve_answers`): whatever it is asked, its answers are those of a map that was empty
at first, its sections fill memory and have the owners of the map, and no address is granted twice. -/

namespace MacroAsm

/-! ## A map from addresses to names -/

/-- A request of a name: for a certain address, or for the first free one of a range, both ends
    included. -/
inductive Request where
  | address (address : Nat) (name : String)
  | range (first last : Nat) (name : String)
  deriving DecidableEq, Repr

/-- What memory of some size, in which addresses belong to names, has to answer to a request, and to
    whom addresses belong afterwards. -/
inductive Answers (size : Nat) (owner : Nat → Option String) :
    Request → Except AllocationError Nat → (Nat → Option String) → Prop
  | outOfRange {a : Nat} {name : String} (ha : size ≤ a) :
      Answers size owner (.address a name) (.error (.outOfRange name a (size - 1))) owner
  | overlapped {a : Nat} {name other : String} (ha : a < size) (ho : owner a = some other) :
      Answers size owner (.address a name) (.error (.overlapped name a other)) owner
  | granted {a : Nat} {name : String} (ha : a < size) (ho : owner a = none) :
      Answers size owner (.address a name) (.ok a) fun b => if b = a then some name else owner b
  | full {first last : Nat} {name : String}
      (h : ∀ a, first ≤ a → a ≤ last → a < size → owner a ≠ none) :
      Answers size owner (.range first last name) (.error (.full name first last)) owner
  | least {first last a : Nat} {name : String} (hfirst : first ≤ a) (hlast : a ≤ last)
      (ha : a < size) (ho : owner a = none) (hleast : ∀ b, first ≤ b → b < a → owner b ≠ none) :
      Answers size owner (.range first last name) (.ok a) fun b =>
        if b = a then some name else owner b

/-- The answers to requests one after another. -/
inductive AnswersAll (size : Nat) : (Nat → Option String) → List Request →
    List (Except AllocationError Nat) → (Nat → Option String) → Prop
  | nil {owner : Nat → Option String} : AnswersAll size owner [] [] owner
  | cons {owner owner' owner'' : Nat → Option String} {r : Request}
      {answer : Except AllocationError Nat} {requests : List Request}
      {answers : List (Except AllocationError Nat)} (h : Answers size owner r answer owner')
      (hrest : AnswersAll size owner' requests answers owner'') :
      AnswersAll size owner (r :: requests) (answer :: answers) owner''

/-- The addresses that some answers grant. -/
def granted (answers : List (Except AllocationError Nat)) : List Nat :=
  answers.filterMap Except.toOption

section Map

variable {size : Nat} {owner owner' : Nat → Option String} {r : Request}

/-- An address that is granted was free and lies in memory; afterwards it has an owner, as all others
    have that had one before. -/
theorem Answers.of_ok {a : Nat} (h : Answers size owner r (.ok a) owner') :
    a < size ∧ owner a = none ∧ owner' a ≠ none ∧ ∀ b, owner b ≠ none → owner' b ≠ none := by
  have hkept (name : String) (b : Nat) (hb : owner b ≠ none) :
      (if b = a then some name else owner b) ≠ none := by
    split
    · simp
    · exact hb
  cases h with
  | granted ha ho => exact ⟨ha, ho, by simp, hkept _⟩
  | least hfirst hlast ha ho hleast => exact ⟨ha, ho, by simp, hkept _⟩

/-- Without a grant nobody gains or loses an address. -/
theorem Answers.of_error {e : AllocationError} (h : Answers size owner r (.error e) owner') :
    owner' = owner := by
  cases h <;> rfl

/-- Addresses that are granted lie in memory, had no owner before, and are granted once. -/
theorem AnswersAll.granted_free {requests : List Request}
    {answers : List (Except AllocationError Nat)} (h : AnswersAll size owner requests answers owner') :
    (granted answers).Nodup ∧ ∀ a ∈ granted answers, a < size ∧ owner a = none := by
  induction h with
  | nil => simp [granted]
  | @cons owner _ _ _ answer _ answers hanswer _ ih =>
    obtain ⟨hnodup, hfree⟩ := ih
    cases answer with
    | error e =>
      obtain rfl := hanswer.of_error
      exact ⟨hnodup, hfree⟩
    | ok a =>
      obtain ⟨ha, hnone, howned, hkept⟩ := hanswer.of_ok
      show (a :: granted answers).Nodup ∧ ∀ b ∈ a :: granted answers, b < size ∧ owner b = none
      refine ⟨List.nodup_cons.2 ⟨fun hmem => howned (hfree a hmem).2, hnodup⟩, fun b hb => ?_⟩
      rcases List.mem_cons.1 hb with rfl | hb
      · exact ⟨ha, hnone⟩
      · obtain ⟨hlt, hafter⟩ := hfree b hb
        exact ⟨hlt, Classical.byContradiction fun hb => hkept b hb hafter⟩

end Map

/-! ## Serving requests -/

namespace Allocator

/-- The answer to a request, and memory after it: as it was, if no address is granted. -/
def serve (m : Allocator) : Request → Except AllocationError Nat × Allocator
  | .address address name =>
    match m.grant address name with
    | .ok m' => (.ok address, m')
    | .error e => (.error e, m)
  | .range first last name =>
    match m.grantFirst first last name with
    | .ok (address, m') => (.ok address, m')
    | .error e => (.error e, m)

/-- Memory after some requests. -/
def after (m : Allocator) (requests : List Request) : Allocator :=
  requests.foldl (fun m r => (m.serve r).2) m

/-- The answers to some requests. -/
def answers (m : Allocator) : List Request → List (Except AllocationError Nat)
  | [] => []
  | r :: requests => (m.serve r).1 :: (m.serve r).2.answers requests

variable {size : Nat} {m : Allocator}

/-- A request that fails changes nothing. -/
theorem serve_of_error {r : Request} {e : AllocationError} (h : (m.serve r).1 = .error e) :
    (m.serve r).2 = m := by
  unfold serve at h ⊢
  split at h
  · split at h
    · simp at h
    · rfl
  · split at h
    · simp at h
    · rfl

/-- Memory has some size, and its sections fill it. -/
structure Sound (size : Nat) (m : Allocator) : Prop where
  last_eq : m.last + 1 = size
  whole : m.Whole

theorem sound_ofSize (hsize : 1 ≤ size) : (ofSize size).Sound size where
  last_eq := Nat.sub_add_cancel hsize
  whole := whole_ofSize size

theorem Sound.of_grants (hm : m.Sound size) {m' : Allocator} {name : String} {address : Nat}
    (h : m.Grants name address m') : m'.Sound size where
  last_eq := h.last_eq ▸ hm.last_eq
  whole := h.whole hm.whole

/-- A request for a certain address is answered as it should be. -/
theorem Sound.serve_address (hm : m.Sound size) (a : Nat) (name : String) :
    (m.serve (.address a name)).2.Sound size ∧
      Answers size m.owner? (.address a name) (m.serve (.address a name)).1
        (m.serve (.address a name)).2.owner? := by
  have hlast := hm.last_eq
  by_cases hout : m.last < a
  · have hsize : m.last = size - 1 := by omega
    have hserve : m.serve (.address a name) = (.error (.outOfRange name a (size - 1)), m) := by
      simp [serve, hm.whole.grant_of_lt hout, ← hsize]
    rw [hserve]
    exact ⟨hm, .outOfRange (by omega)⟩
  · cases ho : m.owner? a with
    | some other =>
      have hserve : m.serve (.address a name) = (.error (.overlapped name a other), m) := by
        simp [serve, grant_of_owner ho]
      rw [hserve]
      exact ⟨hm, .overlapped (by omega) ho⟩
    | none =>
      obtain ⟨m', hgrant, hgrants⟩ := hm.whole.exists_grant (Nat.le_of_not_lt hout) ho name
      have hserve : m.serve (.address a name) = (.ok a, m') := by simp [serve, hgrant]
      have howner : m'.owner? = fun b => if b = a then some name else m.owner? b :=
        funext hgrants.owner?
      rw [hserve, howner]
      exact ⟨hm.of_grants hgrants, .granted (by omega) ho⟩

/-- A request for an address of a range is answered as it should be. -/
theorem Sound.serve_range (hm : m.Sound size) (first last : Nat) (name : String) :
    (m.serve (.range first last name)).2.Sound size ∧
      Answers size m.owner? (.range first last name) (m.serve (.range first last name)).1
        (m.serve (.range first last name)).2.owner? := by
  have hlast := hm.last_eq
  rcases hm.whole.grantFirst_cases first last name with
    ⟨a, m', hgrant, hgrants, hfirst, hstop, hleast⟩ | ⟨hfull, howned⟩
  · have hserve : m.serve (.range first last name) = (.ok a, m') := by simp [serve, hgrant]
    have howner : m'.owner? = fun b => if b = a then some name else m.owner? b :=
      funext hgrants.owner?
    have ha : a < size := hlast ▸ Nat.lt_succ_of_le (hgrants.le_last hm.whole)
    rw [hserve, howner]
    exact ⟨hm.of_grants hgrants, .least hfirst hstop ha hgrants.free hleast⟩
  · have hserve : m.serve (.range first last name) = (.error (.full name first last), m) := by
      simp [serve, hfull]
    rw [hserve]
    exact ⟨hm, .full fun b hb hblast hbsize => howned b hb hblast (by omega)⟩

/-! ## All requests -/

theorem Sound.serve (hm : m.Sound size) (r : Request) :
    (m.serve r).2.Sound size ∧ Answers size m.owner? r (m.serve r).1 (m.serve r).2.owner? := by
  cases r with
  | address a name => exact hm.serve_address a name
  | range first last name => exact hm.serve_range first last name

theorem Sound.serveAll (hm : m.Sound size) (requests : List Request) :
    (m.after requests).Sound size ∧
      AnswersAll size m.owner? requests (m.answers requests) (m.after requests).owner? := by
  induction requests generalizing m with
  | nil => exact ⟨hm, .nil⟩
  | cons r requests ih =>
    obtain ⟨hsound, hanswer⟩ := hm.serve r
    obtain ⟨hafter, hrest⟩ := ih hsound
    exact ⟨hafter, .cons hanswer hrest⟩

/-- What is true of memory of some size after some requests. -/
structure Refines (size : Nat) (requests : List Request) : Prop where
  /-- The answers are those of a map in which no address has an owner at first. -/
  answers : AnswersAll size (fun _ => none) requests ((ofSize size).answers requests)
    ((ofSize size).after requests).owner?
  /-- The sections follow one another and fill memory; those with an owner are single bytes. -/
  partition : Section.Partition 0 size ((ofSize size).after requests).sections
  /-- Each section has the owner of its addresses. -/
  owner : ∀ s ∈ ((ofSize size).after requests).sections, ∀ a, s.Holds a →
    ((ofSize size).after requests).owner? a = s.owner
  /-- A further request that fails changes nothing. -/
  unchanged : ∀ r e, (((ofSize size).after requests).serve r).1 = .error e →
    (((ofSize size).after requests).serve r).2 = (ofSize size).after requests
  /-- No address is granted twice. -/
  nodup : (granted ((ofSize size).answers requests)).Nodup
  /-- The addresses that are granted lie in memory. -/
  lt_size : ∀ a ∈ granted ((ofSize size).answers requests), a < size

/-- **The allocator answers as a map from addresses to names.** Whatever it is asked for, its answers
    are those of a map that is empty at first, and it changes as the map does; a request that fails
    changes nothing. Its sections fill memory one behind the other, those with an owner are single
    bytes, and each has the owner of its addresses in the map. Hence the addresses that were granted
    are different and lie in memory. -/
theorem serve_answers (size : Nat) (hsize : 1 ≤ size) (requests : List Request) :
    Refines size requests := by
  have hempty : (ofSize size).owner? = fun _ => none := funext (owner?_ofSize size)
  obtain ⟨hsound, hanswers⟩ := (sound_ofSize hsize).serveAll requests
  rw [hempty] at hanswers
  obtain ⟨hnodup, hfree⟩ := hanswers.granted_free
  exact {
    answers := hanswers
    partition := by
      have hwhole := hsound.whole
      rwa [Whole, hsound.last_eq] at hwhole
    owner := fun s hs a ha => hsound.whole.owner?_of_mem hs ha
    unchanged := fun r e he => serve_of_error he
    nodup := hnodup
    lt_size := fun a ha => (hfree a ha).1 }

/-- Requests for eight bytes of memory, the last of which is for a byte that has an owner. -/
def someRequests : List Request :=
  [.address 3 "x", .range 0 7 "a", .range 3 7 "b", .address 3 "y"]

/-- The sections that the requests leave, and what further ones are answered. -/
theorem serve_someRequests :
    ((ofSize 8).after someRequests).sections =
        [⟨0, 0, some "a"⟩, ⟨1, 2, none⟩, ⟨3, 3, some "x"⟩, ⟨4, 4, some "b"⟩, ⟨5, 7, none⟩] ∧
      granted ((ofSize 8).answers someRequests) = [3, 0, 4] ∧ [3, 0, 4].Nodup ∧
      (((ofSize 8).after someRequests).serve (.range 3 4 "z")).1 = .error (.full "z" 3 4) ∧
      (((ofSize 8).after someRequests).serve (.range 3 4 "z")).2 = (ofSize 8).after someRequests := by
  have hrefines := serve_answers 8 (by decide) someRequests
  have hgranted : granted ((ofSize 8).answers someRequests) = [3, 0, 4] := by decide +kernel
  have hfull : (((ofSize 8).after someRequests).serve (.range 3 4 "z")).1 =
      .error (.full "z" 3 4) := by rfl
  exact ⟨by decide +kernel, hgranted, hgranted ▸ hrefines.nodup, hfull,
    hrefines.unchanged _ _ hfull⟩

end Allocator

end MacroAsm
