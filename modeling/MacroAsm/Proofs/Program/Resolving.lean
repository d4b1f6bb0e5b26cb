import MacroAsm.Proofs.Program.Encoding

set_option autoImplicit false

/-! # Instructions without a value

What is reported when a listing is linked names an operand of one of its instructions. A variable
without an address is reported as such and as nothing else, and only if an instruction of the code has
it as an operand (`Program.exists_of_noAddress`). -/

namespace MacroAsm

/-! ## Operands -/

/-- The first letter of a message, which tells it from the others. -/
def ResolveError.initial : ResolveError → Char
  | .noRegister _ _ => 'R'
  | .noAddress _ => 'V'
  | .outsideMemory _ _ => 'A'
  | .notByte _ => 'N'
  | .noLabel _ => 'U'
  | .quoted => 'S'

theorem head?_toList_append {s : String} {c : Char} (h : s.toList.head? = some c) (t : String) :
    (s ++ t).toList.head? = some c := by
  rw [String.toList_append, List.head?_append, h, Option.some_or]

theorem ResolveError.head?_message (e : ResolveError) :
    e.message.toList.head? = some e.initial := by
  unfold message
  split
  · exact head?_toList_append (head?_toList_append (head?_toList_append rfl _) _) _
  · exact head?_toList_append (head?_toList_append rfl _) _
  · exact head?_toList_append (head?_toList_append (head?_toList_append rfl _) _) _
  · exact head?_toList_append (head?_toList_append rfl _) _
  · exact head?_toList_append (head?_toList_append rfl _) _
  · rfl

/-- What is reported as a variable without an address is one. -/
theorem ResolveError.eq_noAddress_of_message {e : ResolveError} {name : String}
    (h : e.message = (ResolveError.noAddress name).message) :
    ∃ other, e = .noAddress other := by
  have hinitial : some e.initial = some 'V' := by
    rw [← head?_message, h, head?_message]
    rfl
  cases e with
  | noAddress other => exact ⟨other, rfl⟩
  | _ => simp [initial] at hinitial

/-- Only a variable is without an address, and only if it has none. -/
theorem Scope.eq_variable_of_value {s : Scope} {x : Operand} {name : String}
    (h : s.value x = .error (.noAddress name)) :
    x = .variable name ∧ s.addresses.find? name = none := by
  have hregister (r : Register) : s.registerValue r ≠ .error (.noAddress name) := by
    unfold registerValue
    split
    · simp
    · simp
  unfold value at h
  split at h
  · exact absurd h (hregister _)
  · exact absurd h (hregister _)
  · split at h
    · simp at h
    · next hnone =>
      obtain rfl := ResolveError.noAddress.inj (Except.error.inj h)
      exact ⟨rfl, hnone⟩
  · split at h
    · simp at h
    · simp at h
  · split at h
    · simp at h
    · simp at h
  · split at h
    · simp at h
    · simp at h
  · simp at h

/-- An instruction is not encoded because one of its operands has no value. -/
theorem Instruction.exists_of_resolve {ε : Type} {value : Operand → Except ε UInt16}
    {i : Instruction} {e : ε} (h : i.resolve value = .error e) :
    ∃ x ∈ i.operands, value x = .error e := by
  have hargument {n : Nat} (ha : argument value i.operands[n]? = .error e) :
      ∃ x ∈ i.operands, value x = .error e := by
    cases hx : i.operands[n]? with
    | none => simp [hx, argument] at ha
    | some x => exact ⟨x, List.mem_of_getElem? hx, by simpa [hx, argument] using ha⟩
  unfold resolve at h
  split at h
  · next ha =>
    obtain rfl := Except.error.inj h
    exact hargument ha
  · split at h
    · next ha =>
      obtain rfl := Except.error.inj h
      exact hargument ha
    · simp at h

/-! ## Listings -/

/-- A statement of a listing stands on one of the lines that were read. -/
theorem Listing.exists_of_mem_extend {s : Listing} {lines : List Line} {p : ParsedLine}
    {x : Statement} (hp : p ∈ (s.extend lines).parsed.toList) (hx : p.statement = some x) :
    p ∈ s.parsed.toList ∨ ∃ l ∈ lines, Statement.parse l.code = .ok (some x) := by
  -- an entry that is added holds what its line was read as
  have hpush {s' : Listing} {q : ParsedLine} (hmem : p ∈ (s'.parsed.push q).toList)
      (hs' : p ∈ s'.parsed.toList →
        p ∈ s.parsed.toList ∨ ∃ l ∈ lines, Statement.parse l.code = .ok (some x))
      (hq : q.statement = some x → ∃ l ∈ lines, Statement.parse l.code = .ok (some x)) :
      p ∈ s.parsed.toList ∨ ∃ l ∈ lines, Statement.parse l.code = .ok (some x) := by
    rw [Array.toList_push, List.mem_append, List.mem_singleton] at hmem
    rcases hmem with hmem | rfl
    · exact hs' hmem
    · exact .inr (hq hx)
  refine extend_induction (P := fun s' => p ∈ s'.parsed.toList → p ∈ s.parsed.toList ∨
    ∃ l ∈ lines, Statement.parse l.code = .ok (some x)) .inl ?_ ?_ ?_ ?_ hp
  · exact fun _ _ hs' => hs'
  · exact fun s' l _ hs' hmem => hpush hmem hs' nofun
  · intro s' l hl name hparse hs' hmem
    obtain ⟨report, heq⟩ := s'.addLabel_eq l name
    rw [heq] at hmem
    exact hpush hmem hs' fun hq => ⟨l, hl, hq ▸ hparse⟩
  · exact fun s' l hl i hparse _ hs' hmem => hpush hmem hs' fun hq => ⟨l, hl, hq ▸ hparse⟩

/-- A variable that is reported to have no address is an operand of an instruction of the code, and
    has none. -/
theorem Program.exists_of_noAddress {scope : Scope} {lines : List Line} {m : Message}
    {name : String}
    (hm : m ∈ (link scope (Listing.ofLines lines).parsed.toList).2.toList)
    (htext : m.text = (ResolveError.noAddress name).message) :
    ∃ l ∈ lines, ∃ x i, Statement.parse l.code = .ok (some (.instruction i)) ∧
      Operand.variable x ∈ i.operands ∧ scope.addresses.find? x = none := by
  simp only [link, Report.toList_ofList, List.filterMap_map] at hm
  obtain ⟨p, hp, hm⟩ := List.mem_filterMap.1 hm
  simp only [Function.comp_apply, Encoded.message?] at hm
  split at hm
  · next i e hfailed =>
    obtain rfl := Option.some.inj hm
    obtain ⟨other, rfl⟩ := ResolveError.eq_noAddress_of_message htext
    unfold Encoded.ofStatement at hfailed
    split at hfailed
    · simp at hfailed
    · simp at hfailed
    · next j hstatement =>
      split at hfailed
      · simp at hfailed
      · next hresolve =>
        obtain ⟨rfl, rfl⟩ := Encoded.failed.inj hfailed
        obtain ⟨x, hx, hvalue⟩ := Instruction.exists_of_resolve hresolve
        obtain ⟨rfl, hnone⟩ := Scope.eq_variable_of_value hvalue
        rcases Listing.exists_of_mem_extend hp hstatement with hempty | ⟨l, hl, hparse⟩
        · simp [Listing.empty] at hempty
        · exact ⟨l, hl, other, j, hparse, hx, hnone⟩
  · simp at hm

end MacroAsm
