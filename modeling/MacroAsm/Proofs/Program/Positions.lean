import MacroAsm.Proofs.Program.Labelling
import MacroAsm.Proofs.Source.Positions

set_option autoImplicit false

/-! # Positions of a program

A listing is made of the lines that were read, and what is reported about it, while it is read or when
it is linked, stands at these lines (`Listing.ofLines_at`, `Program.link_at`). -/

namespace MacroAsm

variable {P : Position → Prop}

/-- What the elements of a list give together one of them gives. -/
theorem exists_of_mem_eachBehind {α β : Type} {f : List α → α → List β} {before as : List α} {b : β}
    (h : b ∈ eachBehind f before as) :
    ∃ front a behind, as = front ++ a :: behind ∧ b ∈ f (before ++ front) a := by
  induction as generalizing before with
  | nil => simp [eachBehind] at h
  | cons a as ih =>
    rw [eachBehind, List.mem_append] at h
    rcases h with h | h
    · exact ⟨[], a, as, rfl, by rwa [List.append_nil]⟩
    · obtain ⟨front, a', behind, rfl, hb⟩ := ih h
      exact ⟨a :: front, a', behind, rfl, by simpa using hb⟩

namespace Listing

/-- What is reported about a line stands at this line, and notes at the lines in front of it. -/
theorem lineMessages_at {before : List Line} (hbefore : ∀ k ∈ before, P k.position) {l : Line}
    (hl : P l.position) : ∀ m ∈ lineMessages before l, m.At P := by
  intro m hm
  unfold lineMessages at hm
  split at hm
  · obtain rfl := List.mem_singleton.1 hm
    exact List.foldlRecOn (motive := Message.At P) _ _ (Message.at_about hl _ _)
      fun m h f _ => h.withNote (by simp) _
  · next name _ =>
    obtain ⟨k, hk, rfl⟩ := List.mem_map.1 hm
    obtain ⟨front, behind, rfl, -, -⟩ := lastDefinition?_eq_some (Option.mem_toList.1 hk)
    refine (Message.at_about hl _ _).withNote (fun p hp => ?_) _
    obtain rfl := Option.some.inj hp
    exact hbefore k (by simp)
  · simp at hm

/-- A listing holds lines that were read, and reports at lines that were read. -/
theorem ofLines_at {lines : List Line} (hlines : ∀ l ∈ lines, P l.position) :
    (∀ p ∈ (ofLines lines).parsed.toList, p.line ∈ lines) ∧ (ofLines lines).report.At P := by
  obtain ⟨kept, rest, hcut, hlabelled⟩ := extend_labelled lines labelled_empty (Nat.zero_le _)
  rw [List.nil_append, List.nil_append] at hcut
  rw [List.nil_append] at hlabelled
  obtain rfl := hcut.eq_append
  refine ⟨fun p hp => ?_, fun m hm => ?_⟩
  · have hkept : p.line ∈ kept := by
      rw [← hlabelled.lines]
      exact List.mem_map_of_mem hp
    exact List.mem_append_left rest hkept
  · rw [ofLines, hlabelled.report, List.mem_append] at hm
    rcases hm with hm | hm
    · obtain ⟨front, l, behind, rfl, hline⟩ := exists_of_mem_eachBehind hm
      rw [List.nil_append] at hline
      exact lineMessages_at (fun k hk => hlines k (by simp [hk])) (hlines l (by simp)) m hline
    · obtain ⟨l, hl, rfl⟩ := List.mem_map.1 hm
      have hmem : l ∈ rest := List.mem_of_head? (Option.mem_toList.1 hl)
      exact Message.at_about (hlines l (List.mem_append_right kept hmem)) _ _

end Listing

/-- A program remembers the lines that it is made of. -/
theorem Program.parsed_link (scope : Scope) (parsed : List ParsedLine) :
    (link scope parsed).1.parsed = parsed :=
  rfl

/-- What is reported when a program is linked stands at its lines. -/
theorem Program.link_at (scope : Scope) {parsed : List ParsedLine}
    (hparsed : ∀ p ∈ parsed, P p.line.position) : (link scope parsed).2.At P := by
  intro m hm
  simp only [link, Report.toList_ofList, List.filterMap_map] at hm
  obtain ⟨p, hp, hm⟩ := List.mem_filterMap.1 hm
  simp only [Function.comp_apply, Encoded.message?] at hm
  split at hm
  · obtain rfl := Option.some.inj hm
    exact Message.at_about (hparsed p hp) _ _
  · simp at hm

end MacroAsm
