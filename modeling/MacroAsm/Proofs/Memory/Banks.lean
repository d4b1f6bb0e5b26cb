import MacroAsm.Proofs.Memory.Granting

set_option autoImplicit false

/-! # Banks

Where a variable without an address of its own comes to lie depends on its index alone
(`Layout.place`): variables lie one behind the other, or in turn in banks of equal size and, when these
are full, behind them all. The searches of the allocator come to this because of an invariant: the
addresses with owners are the places of the variables before (`Layout.Filled`). So each bank is filled
from its front, and when all banks are full, the first free address is the one behind them. -/

namespace MacroAsm

namespace Layout

/-! ## Places -/

/-- How many addresses a bank has; the last one has those that are left over as well. -/
def bankSize (o : Options) : Nat :=
  o.memorySize / o.memoryBlocks

/-- The address of the variable with some index. The banks take turns, each from its front; what comes
    after they are full lies where its index says. -/
def place (o : Options) (balance : Balance) (index : Nat) : Nat :=
  match balance with
  | .incremental => index
  | .balanced =>
    if index < o.memoryBlocks * bankSize o then
      index % o.memoryBlocks * bankSize o + index / o.memoryBlocks
    else index

section Places

variable {o : Options} {balance : Balance} {i j : Nat}

/-- An address of memory fits in a word. -/
theorem toNat_ofNat_of_lt (ho : o.Valid) {a : Nat} (ha : a < o.memorySize) :
    (UInt16.ofNat a).toNat = a := by
  have hmemory := ho.memorySize.2
  rw [UInt16.toNat_ofNat']
  omega

theorem bankSize_pos (ho : o.Valid) : 1 ≤ bankSize o :=
  Nat.div_pos ho.memoryBlocks.2 ho.memoryBlocks.1

theorem banks_le (o : Options) : o.memoryBlocks * bankSize o ≤ o.memorySize :=
  Nat.mul_div_le o.memorySize o.memoryBlocks

/-- Behind the banks there are fewer addresses than there are banks. -/
theorem lt_banks_add (ho : o.Valid) :
    o.memorySize < o.memoryBlocks * bankSize o + o.memoryBlocks :=
  Nat.lt_mul_div_succ o.memorySize ho.memoryBlocks.1

/-- The places in the banks: an index of the bank and one in the bank. -/
theorem place_balanced_of_lt (h : i < o.memoryBlocks * bankSize o) :
    place o .balanced i = i % o.memoryBlocks * bankSize o + i / o.memoryBlocks ∧
      i / o.memoryBlocks < bankSize o :=
  ⟨if_pos h, Nat.div_lt_of_lt_mul h⟩

theorem place_balanced_of_le (h : o.memoryBlocks * bankSize o ≤ i) : place o .balanced i = i :=
  if_neg (Nat.not_lt.2 h)

/-- A bank ends where the next one begins. -/
theorem bank_end_le (ho : o.Valid) (i : Nat) :
    i % o.memoryBlocks * bankSize o + bankSize o ≤ o.memoryBlocks * bankSize o := by
  rw [← Nat.succ_mul]
  exact Nat.mul_le_mul_right _ (Nat.mod_lt i ho.memoryBlocks.1)

theorem bank_eq (ho : o.Valid) (last i : Nat) :
    bank o last i = (i % o.memoryBlocks * bankSize o,
      if i % o.memoryBlocks + 1 = o.memoryBlocks then last
      else i % o.memoryBlocks * bankSize o + bankSize o - 1) := by
  have hmax : Nat.max o.memoryBlocks 1 = o.memoryBlocks := Nat.max_eq_left ho.memoryBlocks.1
  simp only [bank, hmax, bankSize]

/-- The banks are in memory, and none is empty. -/
theorem bank_bounds (ho : o.Valid) (i : Nat) :
    1 ≤ (bank o (o.memorySize - 1) i).1 + bankSize o ∧
      (bank o (o.memorySize - 1) i).1 ≤ (bank o (o.memorySize - 1) i).2 ∧
      (bank o (o.memorySize - 1) i).2 < o.memorySize := by
  have hsize := bankSize_pos ho
  have hbanks := banks_le o
  have hend := bank_end_le ho i
  have hmemory := ho.memorySize.1
  rw [bank_eq ho]
  refine ⟨by omega, ?_, ?_⟩
  · dsimp only
    split <;> omega
  · dsimp only
    split <;> omega

/-- An index that is in a bank has its place in the banks. -/
theorem place_lt_banks (ho : o.Valid) (h : i < o.memoryBlocks * bankSize o) :
    place o .balanced i < o.memoryBlocks * bankSize o := by
  obtain ⟨heq, hlt⟩ := place_balanced_of_lt h
  have hend := bank_end_le ho i
  omega

/-- Variables that find room are placed in memory. -/
theorem place_lt (ho : o.Valid) (balance : Balance) (h : i < o.memorySize) :
    place o balance i < o.memorySize := by
  cases balance with
  | incremental => exact h
  | balanced =>
    rcases Nat.lt_or_ge i (o.memoryBlocks * bankSize o) with hlt | hge
    · exact Nat.lt_of_lt_of_le (place_lt_banks ho hlt) (banks_le o)
    · rwa [place_balanced_of_le hge]

/-- No two variables are placed at one address. -/
theorem place_injective (ho : o.Valid) (h : place o balance i = place o balance j) : i = j := by
  cases balance with
  | incremental => exact h
  | balanced =>
    rcases Nat.lt_or_ge i (o.memoryBlocks * bankSize o) with hi | hi <;>
      rcases Nat.lt_or_ge j (o.memoryBlocks * bankSize o) with hj | hj
    · -- the place tells the bank and the index in it, and these tell the index
      obtain ⟨hi', hlti⟩ := place_balanced_of_lt hi
      obtain ⟨hj', hltj⟩ := place_balanced_of_lt hj
      rw [hi', hj'] at h
      have hbank := congrArg (· / bankSize o) h
      have hindex := congrArg (· % bankSize o) h
      simp only [Nat.mul_comm _ (bankSize o), Nat.mul_add_div (bankSize_pos ho),
        Nat.mul_add_mod, Nat.div_eq_of_lt hlti, Nat.div_eq_of_lt hltj, Nat.mod_eq_of_lt hlti,
        Nat.mod_eq_of_lt hltj, Nat.add_zero] at hbank hindex
      rw [← Nat.div_add_mod i o.memoryBlocks, ← Nat.div_add_mod j o.memoryBlocks, hbank, hindex]
    · have hlt := place_lt_banks ho hi
      rw [h, place_balanced_of_le hj] at hlt
      omega
    · have hlt := place_lt_banks ho hj
      rw [← h, place_balanced_of_le hi] at hlt
      omega
    · rwa [place_balanced_of_le hi, place_balanced_of_le hj] at h

/-- The place of the variable with an index `x` in the bank `q`. -/
theorem place_of_bank (ho : o.Valid) {q x : Nat} (hq : q < o.memoryBlocks) (hx : x < bankSize o) :
    place o .balanced (o.memoryBlocks * x + q) = q * bankSize o + x := by
  have hpos := ho.memoryBlocks.1
  have hlt : o.memoryBlocks * x + q < o.memoryBlocks * bankSize o := by
    have hnext : o.memoryBlocks * (x + 1) ≤ o.memoryBlocks * bankSize o := Nat.mul_le_mul_left _ hx
    rw [Nat.mul_succ] at hnext
    omega
  rw [(place_balanced_of_lt hlt).1, Nat.mul_add_mod, Nat.mod_eq_of_lt hq,
    Nat.mul_add_div hpos, Nat.div_eq_of_lt hq, Nat.add_zero]

/-- Every address of memory is the place of a variable. -/
theorem exists_place (ho : o.Valid) (balance : Balance) {a : Nat} (ha : a < o.memorySize) :
    ∃ i < o.memorySize, place o balance i = a := by
  cases balance with
  | incremental => exact ⟨a, ha, rfl⟩
  | balanced =>
    rcases Nat.lt_or_ge a (o.memoryBlocks * bankSize o) with hlt | hge
    · have hq : a / bankSize o < o.memoryBlocks := Nat.div_lt_of_lt_mul (by rwa [Nat.mul_comm])
      have hx : a % bankSize o < bankSize o := Nat.mod_lt a (bankSize_pos ho)
      have hplace := place_of_bank ho hq hx
      rw [Nat.mul_comm (a / bankSize o), Nat.div_add_mod] at hplace
      refine ⟨_, ?_, hplace⟩
      have hnext : o.memoryBlocks * (a % bankSize o + 1) ≤ o.memoryBlocks * bankSize o :=
        Nat.mul_le_mul_left _ hx
      have hbanks := banks_le o
      rw [Nat.mul_succ] at hnext
      omega
    · exact ⟨a, ha, place_balanced_of_le hge⟩

end Places

/-! ## Filling memory -/

/-- Memory is whole, and the addresses with owners are the places of the first `k` variables. -/
structure Filled (o : Options) (balance : Balance) (k : Nat) (m : Allocator) : Prop where
  last_eq : m.last = o.memorySize - 1
  whole : m.Whole
  owner_iff : ∀ a < o.memorySize, m.owner? a ≠ none ↔ ∃ i < k, place o balance i = a

section Filling

variable {o : Options} {balance : Balance} {k : Nat} {m m' : Allocator} {name : String}

theorem filled_ofSize (o : Options) (balance : Balance) :
    Filled o balance 0 (.ofSize o.memorySize) where
  last_eq := rfl
  whole := Allocator.whole_ofSize o.memorySize
  owner_iff := fun a _ => by simp

/-- The next place is free. -/
theorem Filled.free (h : Filled o balance k m) (ho : o.Valid) (hk : k < o.memorySize) :
    m.owner? (place o balance k) = none := by
  refine Classical.byContradiction fun howner => ?_
  obtain ⟨i, hi, heq⟩ := (h.owner_iff _ (place_lt ho balance hk)).1 howner
  exact Nat.ne_of_lt hi (place_injective ho heq)

/-- The places in front have owners. -/
theorem Filled.owned (h : Filled o balance k m) (ho : o.Valid) {i : Nat} (hi : i < k)
    (hsize : i < o.memorySize) : m.owner? (place o balance i) ≠ none :=
  (h.owner_iff _ (place_lt ho balance hsize)).2 ⟨i, hi, rfl⟩

/-- A grant of the next place fills memory with one more variable. -/
theorem Filled.grant (h : Filled o balance k m) (hgrants : m.Grants name (place o balance k) m') :
    Filled o balance (k + 1) m' := by
  refine ⟨hgrants.last_eq.trans h.last_eq, hgrants.whole h.whole, fun a ha => ?_⟩
  rw [hgrants.owner?]
  constructor
  · intro howner
    split at howner
    · next heq => exact ⟨k, Nat.lt_succ_self k, heq.symm⟩
    · obtain ⟨i, hi, heq⟩ := (h.owner_iff a ha).1 howner
      exact ⟨i, Nat.lt_succ_of_lt hi, heq⟩
  · rintro ⟨i, hi, heq⟩
    split
    · simp
    · next hne =>
      refine (h.owner_iff a ha).2 ⟨i, Nat.lt_of_le_of_ne (Nat.le_of_lt_succ hi) ?_, heq⟩
      rintro rfl
      exact hne heq.symm

/-- When all addresses in front of the next place have owners, a search of the whole memory finds it. -/
theorem Filled.exists_grantFirst (h : Filled o balance k m) (ho : o.Valid) (hk : k < o.memorySize)
    {first last : Nat} (hfirst : first ≤ place o balance k) (hlast : place o balance k ≤ last)
    (hleast : ∀ b, first ≤ b → b < place o balance k → m.owner? b ≠ none) (name : String) :
    ∃ m', m.grantFirst first last name = .ok (place o balance k, m') ∧
      Filled o balance (k + 1) m' := by
  have hle : place o balance k ≤ m.last := by
    have hlt := place_lt ho balance hk
    rw [h.last_eq]
    omega
  obtain ⟨m', hgrant, hgrants⟩ :=
    h.whole.exists_grantFirst hfirst hlast hle (h.free ho hk) hleast name
  exact ⟨m', hgrant, h.grant hgrants⟩

/-- While there is room in the banks, the bank whose turn it is is filled up to the next place. -/
theorem Filled.exists_grantBank (h : Filled o .balanced k m) (ho : o.Valid)
    (hk : k < o.memoryBlocks * bankSize o) (name : String) :
    ∃ m', m.grantFirst (bank o m.last k).1 (bank o m.last k).2 name =
        .ok (place o .balanced k, m') ∧ Filled o .balanced (k + 1) m' := by
  have hbanks := banks_le o
  have hlast := h.last_eq
  have hturn : k % o.memoryBlocks < o.memoryBlocks := Nat.mod_lt k ho.memoryBlocks.1
  have hend := bank_end_le ho k
  obtain ⟨hplace, hindex⟩ := place_balanced_of_lt hk
  rw [bank_eq ho]
  refine h.exists_grantFirst ho (Nat.lt_of_lt_of_le hk hbanks) ?_ ?_ ?_ name
  · rw [hplace]
    exact Nat.le_add_right _ _
  · rw [hplace]
    dsimp only
    split <;> omega
  · intro b hb hbk
    dsimp only at hb
    rw [hplace] at hbk
    -- an address of the bank in front of the place is that of an earlier variable of the bank
    obtain ⟨x, rfl⟩ := Nat.exists_eq_add_of_le hb
    have hx : x < k / o.memoryBlocks := by omega
    have hbefore : o.memoryBlocks * x + k % o.memoryBlocks < k := by
      have hmul := Nat.mul_le_mul_left o.memoryBlocks (Nat.succ_le_of_lt hx)
      have hdivision := Nat.div_add_mod k o.memoryBlocks
      rw [Nat.mul_succ] at hmul
      omega
    have howned := h.owned ho hbefore (by omega)
    rwa [place_of_bank ho hturn (by omega)] at howned

/-- When the banks are full, all addresses in front of the next place have owners, and so have all
    those of the bank whose turn it is. -/
theorem Filled.exists_grantBehind (h : Filled o .balanced k m) (ho : o.Valid)
    (hk : k < o.memorySize) (hbanks : o.memoryBlocks * bankSize o ≤ k) (name : String) :
    ∃ m', m.grantFirst 0 m.last name = .ok (place o .balanced k, m') ∧
      Filled o .balanced (k + 1) m' ∧
      m.grantFirst (bank o m.last k).1 (bank o m.last k).2 name =
        .error (.full name (bank o m.last k).1 (bank o m.last k).2) := by
  have hlast := h.last_eq
  have hplace := place_balanced_of_le hbanks
  have hfront : ∀ b < k, m.owner? b ≠ none := by
    intro b hb
    obtain ⟨i, hi, rfl⟩ := exists_place ho .balanced (Nat.lt_trans hb hk)
    refine h.owned ho ?_ hi
    rcases Nat.lt_or_ge i (o.memoryBlocks * bankSize o) with hin | hout
    · omega
    · rwa [place_balanced_of_le hout] at hb
  have hreach : place o .balanced k ≤ m.last := by omega
  obtain ⟨m', hgrant, hfilled⟩ := h.exists_grantFirst ho hk (Nat.zero_le _) hreach
    (fun b _ hb => hfront b (hplace ▸ hb)) name
  refine ⟨m', hgrant, hfilled, h.whole.grantFirst_of_owned (fun b _ hb _ => ?_) name⟩
  -- fewer variables than banks come behind the banks, so the last bank does not get its turn
  have hturn : k % o.memoryBlocks + 1 < o.memoryBlocks := by
    have hroom := lt_banks_add ho
    have hk' : k = o.memoryBlocks * bankSize o + (k - o.memoryBlocks * bankSize o) := by omega
    rw [hk', Nat.mul_add_mod, Nat.mod_eq_of_lt (by omega)]
    omega
  have hend := bank_end_le ho k
  have hsize := bankSize_pos ho
  rw [bank_eq ho, if_neg (Nat.ne_of_lt hturn)] at hb
  exact hfront b (by omega)

/-- The next variable gets its place. -/
theorem Filled.grantNext {s : Assigned} (h : Filled o balance k s.memory) (ho : o.Valid)
    (hk : k < o.memorySize) (name : String) (p : Position) :
    ∃ m', Filled o balance (k + 1) m' ∧
      s.grantNext balance o ((name, p), k) = s.note name p (.ok (place o balance k, m')) := by
  cases balance with
  | incremental =>
    have hreach : place o .incremental k ≤ s.memory.last := by
      rw [h.last_eq]
      exact Nat.le_sub_one_of_lt hk
    obtain ⟨m', hgrant, hfilled⟩ := h.exists_grantFirst ho hk (Nat.zero_le _) hreach
      (fun b _ hb => h.owned (i := b) ho hb (Nat.lt_trans hb hk)) name
    exact ⟨m', hfilled, congrArg (s.note name p) hgrant⟩
  | balanced =>
    rcases Nat.lt_or_ge k (o.memoryBlocks * bankSize o) with hin | hbehind
    · obtain ⟨m', hgrant, hfilled⟩ := h.exists_grantBank ho hin name
      exact ⟨m', hfilled, by simp only [Assigned.grantNext, hgrant]⟩
    · obtain ⟨m', hgrant, hfilled, hfull⟩ := h.exists_grantBehind ho hk hbehind name
      exact ⟨m', hfilled, by simp only [Assigned.grantNext, hfull, hgrant]⟩

/-- When memory is full, no variable gets an address, whatever bank has its turn. -/
theorem Filled.grantNext_of_le {s : Assigned} (h : Filled o balance k s.memory) (ho : o.Valid)
    (hk : o.memorySize ≤ k) (name : String) (p : Position) :
    s.grantNext balance o ((name, p), k) =
      s.note name p (.error (.full name 0 (o.memorySize - 1))) := by
  have hmemory := ho.memorySize.1
  have hall : ∀ b, b ≤ s.memory.last → s.memory.owner? b ≠ none := by
    intro b hb
    rw [h.last_eq] at hb
    obtain ⟨i, hi, heq⟩ := exists_place ho balance (a := b) (by omega)
    exact heq ▸ h.owned ho (Nat.lt_of_lt_of_le hi hk) hi
  have hfull (first last : Nat) :
      s.memory.grantFirst first last name = .error (.full name first last) :=
    h.whole.grantFirst_of_owned (fun b _ _ hb => hall b hb) name
  cases balance with
  | incremental => simp only [Assigned.grantNext, hfull, h.last_eq]
  | balanced => simp only [Assigned.grantNext, hfull, h.last_eq]

end Filling

end Layout

end MacroAsm
