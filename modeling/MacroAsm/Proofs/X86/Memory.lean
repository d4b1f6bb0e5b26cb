import Mathlib.Data.Nat.Basic
import Mathlib.Tactic.Ring

set_option autoImplicit false

/-! # Memory of an x86-64 processor

A byte at each address of 64 bits. A number of several bytes has its lowest byte first. Addresses wrap
around, so that a region is told by the distance from its base. -/

namespace MacroAsm

namespace X86

/-- Addresses, and what the registers hold. -/
abbrev Word := BitVec 64

/-- The bytes at all addresses. -/
abbrev Memory := Word → UInt8

/-! ## Addresses -/

/-- The address at a distance from another. -/
def offset (base : Word) (i : Nat) : Word :=
  base + BitVec.ofNat 64 i

/-- How far an address is behind another. -/
def distance (base a : Word) : Nat :=
  (a - base).toNat

@[simp] theorem offset_zero (base : Word) : offset base 0 = base :=
  BitVec.add_zero base

theorem offset_offset (base : Word) (i j : Nat) : offset (offset base i) j = offset base (i + j) := by
  rw [offset, offset, offset, BitVec.add_assoc, ← BitVec.ofNat_add]

theorem offset_distance (base a : Word) : offset base (distance base a) = a := by
  rw [offset, distance, BitVec.ofNat_toNat, BitVec.setWidth_eq, BitVec.add_comm,
    BitVec.sub_add_cancel]

theorem distance_offset {i : Nat} (base : Word) (hi : i < 2 ^ 64) :
    distance base (offset base i) = i := by
  rw [distance, offset, BitVec.add_comm, BitVec.add_sub_cancel, BitVec.toNat_ofNat,
    Nat.mod_eq_of_lt hi]

theorem distance_offset_le (base : Word) (i : Nat) : distance base (offset base i) ≤ i := by
  rw [distance, offset, BitVec.add_comm, BitVec.add_sub_cancel, BitVec.toNat_ofNat]
  exact Nat.mod_le i _

theorem distance_eq_zero_iff {base a : Word} : distance base a = 0 ↔ a = base := by
  constructor
  · intro h
    have ha := offset_distance base a
    rwa [h, offset_zero, eq_comm] at ha
  · rintro rfl
    simp [distance]

theorem offset_inj {base : Word} {i j : Nat} (hi : i < 2 ^ 64) (hj : j < 2 ^ 64)
    (h : offset base i = offset base j) : i = j := by
  rw [← distance_offset base hi, h, distance_offset base hj]

/-! ## Numbers in memory -/

/-- The number in some bytes. -/
def load (m : Memory) (a : Word) : Nat → Nat
  | 0 => 0
  | k + 1 => (m a).toNat + 256 * load m (offset a 1) k

/-- Put a number into some bytes. -/
def store (m : Memory) (a : Word) (k v : Nat) : Memory :=
  fun x => if distance a x < k then UInt8.ofNat (v / 256 ^ distance a x) else m x

theorem load_one (m : Memory) (a : Word) : load m a 1 = (m a).toNat := by
  rw [load, load, Nat.mul_zero, Nat.add_zero]

theorem store_one_self (m : Memory) (a : Word) (v : Nat) : store m a 1 v a = UInt8.ofNat v := by
  have hself : distance a a = 0 := distance_eq_zero_iff.2 rfl
  simp [store, hself]

theorem store_of_le {m : Memory} {a x : Word} {k : Nat} (h : k ≤ distance a x) (v : Nat) :
    store m a k v x = m x :=
  if_neg (Nat.not_lt.2 h)

theorem store_one_of_ne {m : Memory} {a x : Word} (h : x ≠ a) (v : Nat) : store m a 1 v x = m x :=
  store_of_le (Nat.pos_of_ne_zero fun hd => h (distance_eq_zero_iff.1 hd)) v

theorem load_congr {m m' : Memory} {a : Word} {k : Nat}
    (h : ∀ i < k, m (offset a i) = m' (offset a i)) : load m a k = load m' a k := by
  induction k generalizing a with
  | zero => rfl
  | succ k ih =>
    have hfirst : m a = m' a := by simpa using h 0 (Nat.succ_pos k)
    have hrest : ∀ i < k, m (offset (offset a 1) i) = m' (offset (offset a 1) i) := by
      intro i hi
      rw [offset_offset, Nat.add_comm]
      exact h (i + 1) (Nat.succ_lt_succ hi)
    rw [load, load, hfirst, ih hrest]

/-- Bytes that are those of a number hold what fits of it. -/
theorem load_eq_mod {m : Memory} {a : Word} {k v : Nat}
    (h : ∀ i < k, m (offset a i) = UInt8.ofNat (v / 256 ^ i)) : load m a k = v % 256 ^ k := by
  induction k generalizing a v with
  | zero => rw [load, Nat.pow_zero, Nat.mod_one]
  | succ k ih =>
    have hfirst : m a = UInt8.ofNat v := by simpa using h 0 (Nat.succ_pos k)
    have hrest : ∀ i < k, m (offset (offset a 1) i) = UInt8.ofNat (v / 256 / 256 ^ i) := by
      intro i hi
      rw [offset_offset, Nat.add_comm, h (i + 1) (Nat.succ_lt_succ hi), Nat.div_div_eq_div_mul,
        Nat.pow_succ']
    rw [load, hfirst, ih hrest, Nat.pow_succ', Nat.mod_mul]
    rfl

/-- What was put into memory is found there. -/
theorem load_store_self {m : Memory} {a : Word} {k v : Nat} (hk : k ≤ 8) (hv : v < 256 ^ k) :
    load (store m a k v) a k = v := by
  have hbytes : ∀ i < k, store m a k v (offset a i) = UInt8.ofNat (v / 256 ^ i) := by
    intro i hi
    rw [store, distance_offset a (by omega), if_pos hi]
  rw [load_eq_mod hbytes, Nat.mod_eq_of_lt hv]

/-! ## Regions -/

/-- Some bytes from a base on. -/
structure Region where
  base : Word
  size : Nat

namespace Region

/-- Whether an address is in a region. -/
def Has (r : Region) (a : Word) : Prop :=
  distance r.base a < r.size

/-- Whether two regions have no address in common. -/
def Apart (r s : Region) : Prop :=
  ∀ a, r.Has a → ¬ s.Has a

theorem Apart.symm {r s : Region} (h : r.Apart s) : s.Apart r :=
  fun a hs hr => h a hr hs

theorem has_offset {r : Region} {i : Nat} (hi : i < r.size) : r.Has (offset r.base i) :=
  Nat.lt_of_le_of_lt (distance_offset_le r.base i) hi

/-- Regions that follow each other without a wrap have no address in common. -/
theorem apart_of_le {r s : Region} (h : r.base.toNat + r.size ≤ s.base.toNat)
    (hs : s.base.toNat + s.size ≤ 2 ^ 64) : r.Apart s := by
  intro a hr ha
  simp only [Has, distance] at hr ha
  bv_omega

end Region

end X86

end MacroAsm
