set_option autoImplicit false

/-! # Allocator

Addresses of memory are granted to names, one byte at a time, and never taken back. A name asks for an
address of its own or for the first free one in a range. Memory is a sequence of sections, from address
zero to the last one: single bytes that belong to names, and what is free in between. A grant splits
the free section that holds the address into what is in front of it, the byte itself and what is behind
it. -/

namespace MacroAsm

/-- Adjacent addresses, both ends included, that are free or belong to a name. -/
structure Section where
  first : Nat
  last : Nat
  owner : Option String
  deriving DecidableEq, Repr

namespace Section

/-- Whether an address lies in a section. -/
def Holds (s : Section) (address : Nat) : Prop :=
  s.first ≤ address ∧ address ≤ s.last

instance (s : Section) (address : Nat) : Decidable (s.Holds address) :=
  inferInstanceAs (Decidable (_ ∧ _))

/-- A section split at an address that is given to a name. -/
def split (s : Section) (address : Nat) (name : String) : List Section :=
  (if s.first < address then [⟨s.first, address - 1, none⟩] else []) ++
    ⟨address, address, some name⟩ ::
      (if address < s.last then [⟨address + 1, s.last, none⟩] else [])

/-- What a section and a range have in common, from a first address to a last one; nothing if the last
    one comes before the first. -/
def common (s : Section) (first last : Nat) : Nat × Nat :=
  (max s.first first, min s.last last)

end Section

/-- Why no address is granted. -/
inductive AllocationError where
  | outOfRange (name : String) (address last : Nat)
  | overlapped (name : String) (address : Nat) (owner : String)
  | full (name : String) (first last : Nat)
  deriving DecidableEq, Repr

/-- The wording of an error. -/
def AllocationError.message : AllocationError → String
  | .outOfRange name address last =>
    s!"`{name}` at address {address} is outside of memory [0, {last}]"
  | .overlapped name address owner => s!"`{name}` at address {address} overlaps `{owner}`"
  | .full name first last =>
    s!"Out of memory: no free address for `{name}` in [{first}, {last}]"

/-- The sections of memory, in order, and its last address. -/
structure Allocator where
  sections : List Section
  last : Nat
  deriving DecidableEq, Repr

namespace Allocator

/-- Free memory of a size; there is always an address zero. -/
def ofSize (size : Nat) : Allocator where
  sections := [⟨0, size - 1, none⟩]
  last := size - 1

/-- Give an address to a name. -/
def grant (m : Allocator) (address : Nat) (name : String) : Except AllocationError Allocator :=
  match m.sections.span fun s => ¬ s.Holds address with
  | (_, []) => .error (.outOfRange name address m.last)
  | (before, s :: after) =>
    match s.owner with
    | some owner => .error (.overlapped name address owner)
    | none => .ok { m with sections := before ++ s.split address name ++ after }

/-- Give the first free address of a range, both ends included, to a name. -/
def grantFirst (m : Allocator) (first last : Nat) (name : String) :
    Except AllocationError (Nat × Allocator) :=
  let free := m.sections.filter fun s => s.owner.isNone
  match (free.map fun s => s.common first last).find? fun r => r.1 ≤ r.2 with
  | none => .error (.full name first last)
  | some (address, _) => (m.grant address name).map fun m' => (address, m')

end Allocator

end MacroAsm
