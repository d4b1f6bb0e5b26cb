import MacroAsm.Diagnostics.Report

set_option autoImplicit false

/-! # Positions of messages

A message stands at a position, and its notes may stand at others. What holds of all positions of a
report (`Report.At`) is shown message by message, whatever way the report is put together. -/

namespace MacroAsm

variable {P Q : Position → Prop}

namespace Message

/-- The position of a message and those of its notes. -/
def positions (m : Message) : List Position :=
  m.position.toList ++ m.notes.filterMap Note.position

/-- All positions of a message are such positions. -/
def At (P : Position → Prop) (m : Message) : Prop :=
  ∀ p ∈ m.positions, P p

variable {m : Message}

theorem at_about {p : Position} (hp : P p) (severity : Severity) (text : String) :
    (about severity text p).At P := by
  intro q hq
  obtain rfl := List.mem_singleton.1 hq
  exact hp

theorem At.withNote (h : m.At P) {p? : Option Position} (hp : ∀ p ∈ p?, P p) (text : String) :
    (m.withNote text p?).At P := by
  intro q hq
  simp only [positions, Message.withNote, List.filterMap_append, List.mem_append] at hq
  rcases hq with hq | hq | hq
  · exact h q (List.mem_append_left _ hq)
  · exact h q (List.mem_append_right _ hq)
  · obtain ⟨n, hn, hq⟩ := List.mem_filterMap.1 hq
    obtain rfl := List.mem_singleton.1 hn
    exact hp q hq

end Message

namespace Report

/-- All positions of a report are such positions. -/
def At (P : Position → Prop) (r : Report) : Prop :=
  ∀ m ∈ r.toList, m.At P

variable {r s : Report}

theorem at_empty : empty.At P := by
  simp [At]

theorem at_ofList {ms : List Message} (h : ∀ m ∈ ms, m.At P) : (ofList ms).At P := by
  rwa [At, toList_ofList]

theorem At.push (h : r.At P) {m : Message} (hm : m.At P) : (r.push m).At P := by
  intro k hk
  rw [toList_push, List.mem_append, List.mem_singleton] at hk
  rcases hk with hk | rfl
  · exact h k hk
  · exact hm

theorem At.append (hr : r.At P) (hs : s.At P) : (r ++ s).At P := by
  intro k hk
  rw [toList_append, List.mem_append] at hk
  rcases hk with hk | hk
  · exact hr k hk
  · exact hs k hk

theorem At.imp (h : r.At P) (hPQ : ∀ p, P p → Q p) : r.At Q := by
  intro m hm p hp
  exact hPQ p (h m hm p hp)

end Report

end MacroAsm
