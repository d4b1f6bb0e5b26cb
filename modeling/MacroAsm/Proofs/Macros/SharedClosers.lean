import MacroAsm.Proofs.Macros.Nesting

set_option autoImplicit false

/-! # Blocks with a closer in common

Two macros may have the same closer. The search for the closer of a block counts only the uses of the
block's own macro, so a block of the other macro inside it is a stray one: its closer ends the outer
block too early. `Expansion.blocksFrom` tells which blocks a run cuts out. They are the blocks of the
forest exactly if no block has a stray block inside; nesting alone does not suffice. -/

namespace MacroAsm

variable {macros : List Macro}

namespace Expansion

/-- The lines inside the block that is cut out for a use, and its closer. -/
def Use.block? (u : Use) (uid : Nat) : Option (List Line × Line) :=
  match closerText u.mac u.args uid with
  | .ok closer => (findCloser u.mac closer 0 [] u.rest).map fun b => (b.inside, b.closer)
  | .error _ => none

/-- The blocks that a run cuts out, in the order of the expansions, each with its opener. -/
def blocksFrom (macros : List Macro) :
    (left uid : Nat) → List Line → List (Line × Option (List Line × Line))
  | left, uid, lines =>
    match (seek macros [] lines).2 with
    | none => []
    | some u =>
      match left with
      | 0 => []
      | left + 1 => (u.line, u.block? uid) :: blocksFrom macros left (uid + 1) (expandUse u uid).1

theorem blocksFrom_cons_of_not_uses {l : Line} (hl : ¬ l.Uses macros) (left uid : Nat)
    (rest : List Line) :
    blocksFrom macros left uid (l :: rest) = blocksFrom macros left uid rest := by
  have hs : (seek macros [] (l :: rest)).2 = (seek macros [] rest).2 := by
    simp only [seek, Macro.use?_eq_none_iff.2 hl]
    rw [seek_eq]
  unfold blocksFrom
  rw [hs]

theorem blocksFrom_cons_of_use {l : Line} {m : Macro} {args : List String}
    (hl : Macro.use? macros l.code = some (m, args)) (left uid : Nat) (rest : List Line) :
    blocksFrom macros (left + 1) uid (l :: rest) =
      (l, (Use.mk l m args rest).block? uid) ::
        blocksFrom macros left (uid + 1) (expandUse ⟨l, m, args, rest⟩ uid).1 := by
  rw [blocksFrom]
  simp [seek, hl]

end Expansion

namespace Forest

/-- The blocks of a forest in the order of their openers, each with its opener. -/
def blocks : Forest → List (Line × Option (List Line × Line))
  | nil => []
  | line _ rest => rest.blocks
  | block o inside closer rest =>
    (o.line, some (inside.lines, closer)) :: (inside.blocks ++ rest.blocks)

@[simp] theorem blocks_append (f g : Forest) : (f ++ g).blocks = f.blocks ++ g.blocks := by
  induction f with
  | nil => rfl
  | line l rest ih => simpa [blocks] using ih
  | block o inside closer rest _ ih => simp [blocks, ih]

@[simp] theorem blocks_ofLines (ls : List Line) : (ofLines ls).blocks = [] := by
  induction ls with
  | nil => rfl
  | cons l ls ih => simpa [ofLines, blocks] using ih

end Forest

namespace Expansion

/-- What is cut out for an opener is its block exactly if no stray block is inside. -/
theorem block?_eq_iff {o : Opening} {inside : Forest} {closer : Line} (ho : o.Clear macros)
    (hfixed : o.mac.ClosesFixed) (hi : inside.Bracketed macros)
    (hc : closes o.mac.closing closer.code = true) (hu : ¬ closer.Uses macros) (uid : Nat)
    (tail : List Line) :
    (Use.mk o.line o.mac o.args (inside.lines ++ closer :: tail)).block? uid =
      some (inside.lines, closer) ↔ inside.strays o.mac = 0 := by
  simp only [Use.block?, hfixed.closerText]
  constructor
  · intro h
    obtain ⟨b, hb, heq⟩ := Option.map_eq_some_iff.1 h
    exact strays_eq_zero_of_findCloser ho.mem hi hb (Prod.mk.inj heq).1
  · intro h
    rw [(findCloser_inside_iff ho hi hc hu tail).2 h]
    rfl

/-- The blocks that a run cuts out of a forest are its own exactly if no block has a stray block
    inside. -/
theorem blocksFrom_lines_iff (hw : ∀ m ∈ macros, m.wraps = true)
    (hfixed : ∀ m ∈ macros, m.ClosesFixed) {f : Forest} {left uid : Nat}
    (hf : f.Bracketed macros) (hp : f.Fillable macros uid) (hcount : f.count ≤ left) :
    blocksFrom macros left uid f.lines = f.blocks ↔ f.Separated := by
  induction left using Nat.strongRecOn generalizing f uid with
  | ind left ihl =>
    induction f with
    | nil => simp [Forest.lines, blocksFrom, seek, Forest.blocks, Forest.Separated]
    | line l rest ihf =>
      rw [Forest.lines, blocksFrom_cons_of_not_uses hf.1.1]
      exact ihf hf.2 hp hcount
    | block o inside closer rest =>
      obtain ⟨ho, hc, hu, hbi, hbr⟩ := hf
      obtain ⟨hplain, hfi, hfr⟩ := hp
      rw [Forest.count] at hcount
      obtain ⟨left, rfl⟩ : ∃ k, left = k + 1 := ⟨left - 1, by omega⟩
      have hrest : (o.opened uid inside closer rest).count ≤ left := by
        rw [Opening.count_opened]
        omega
      have hblocks : (o.opened uid inside closer rest).blocks = inside.blocks ++ rest.blocks := by
        simp [Opening.opened]
      rw [Forest.lines, blocksFrom_cons_of_use ho.use?, Forest.blocks, List.cons.injEq,
        Prod.mk.injEq, block?_eq_iff ho (hfixed _ ho.mem) hbi hc hu, Forest.Separated,
        ← Opening.separated_opened, ← hblocks]
      -- only once the first block is right does a forest with the other blocks follow it
      have hafter (hstray : inside.strays o.mac = 0) :
          (expandUse ⟨o.line, o.mac, o.args, inside.lines ++ closer :: rest.lines⟩ uid).1 =
            (o.opened uid inside closer rest).lines := by
        rw [expandUse_block (hw _ ho.mem) (hfixed _ ho.mem) hplain
          ((findCloser_inside_iff ho hbi hc hu rest.lines).2 hstray)]
      have hih := ihl left (Nat.lt_succ_self left) (Opening.bracketed_opened hplain hbi hbr)
        (Opening.fillable_opened hfi hfr) hrest
      constructor
      · rintro ⟨⟨-, hstray⟩, htail⟩
        rw [hafter hstray] at htail
        exact ⟨hstray, hih.1 htail⟩
      · rintro ⟨hstray, hsep⟩
        rw [hafter hstray]
        exact ⟨⟨rfl, hstray⟩, hih.2 hsep⟩

end Expansion

/-- **Where blocks with a common closer are nested.** In bracketed code a run cuts out the blocks as
    they are nested exactly if no block has a block of another macro with the same closer inside, at
    any depth. Then each opener becomes the top of its macro and the closer of its block the bottom,
    both filled with the operands of that opener and the number of its expansion. -/
theorem MacroTable.blocksFrom_iff_separated (table : MacroTable) (f : Forest)
    (hwraps : ∀ m ∈ table.values, m.wraps = true) (hfixed : ∀ m ∈ table.values, m.ClosesFixed)
    (hf : f.Bracketed table.values) (hfill : f.Fillable table.values 1)
    (hcount : f.count ≤ 10000) :
    (Expansion.blocksFrom table.values 10000 1 f.lines = f.blocks ↔ f.Separated) ∧
      (f.Separated → table.expand f.lines = (f.expansion 1, .empty)) := by
  refine ⟨Expansion.blocksFrom_lines_iff hwraps hfixed hf hfill hcount, fun hs => ?_⟩
  have hrun := Expansion.expandFrom_forest hwraps hfixed hf hfill hs hcount
  simp only [MacroTable.expand, Expansion.limit, hrun]
  rfl

/-! ### Examples -/

namespace Forest

/-- A loop inside a loop, and behind them a block that saves a register; all have one closer. -/
def loopsThenSaving : Forest :=
  .block (openingOf (repeating "end") 0 "r &r1" "&r1")
    (.block (openingOf (repeating "end") 1 "r &r2" "&r2") .nil (codeLine 2 "end") .nil)
    (codeLine 3 "end")
    (.block (openingOf (saving "end") 4 "s &r3" "&r3") .nil (codeLine 5 "end") .nil)

/-- Blocks of one macro may be inside each other, and those of two macros behind each other. -/
theorem expand_loopsThenSaving :
    Expansion.blocksFrom (savingTable "end" "end").values 10000 1 loopsThenSaving.lines =
        loopsThenSaving.blocks ∧
      (savingTable "end" "end").expand loopsThenSaving.lines =
        (loopsThenSaving.expansion 1, .empty) := by
  have hs : loopsThenSaving.Separated := by decide
  have h := MacroTable.blocksFrom_iff_separated (savingTable "end" "end") loopsThenSaving
    (by decide +kernel) (by decide +kernel) (by decide +kernel) (by decide +kernel)
    (by decide +kernel)
  exact ⟨h.1.2 hs, h.2 hs⟩

/-- A block that saves a register inside a loop with the same closer. -/
def savingInLoop : Forest :=
  .block (openingOf (repeating "end") 0 "r &r1" "&r1")
    (.block (openingOf (saving "end") 1 "s &r2" "&r2") .nil (codeLine 2 "end") .nil)
    (codeLine 3 "end") .nil

/-- The two bottoms change places although the code is bracketed. -/
theorem expand_savingInLoop_ne :
    (∀ m ∈ (savingTable "end" "end").values, m.wraps = true) ∧
      (∀ m ∈ (savingTable "end" "end").values, m.ClosesFixed) ∧
      savingInLoop.Bracketed (savingTable "end" "end").values ∧
      savingInLoop.Fillable (savingTable "end" "end").values 1 ∧ savingInLoop.count ≤ 10000 ∧
      (savingInLoop.expansion 1).map Line.code = ["l_1:", "push &r2", "pop &r2", "jnz &r1, l_1"] ∧
      ((savingTable "end" "end").expand savingInLoop.lines).1.map Line.code =
        ["l_1:", "push &r2", "jnz &r1, l_1", "pop &r2"] := by
  decide +kernel

end Forest

end MacroAsm
