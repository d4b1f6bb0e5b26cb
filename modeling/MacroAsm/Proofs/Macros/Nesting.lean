import MacroAsm.Proofs.Macros.Closer
import Mathlib.Data.List.Nodup

set_option autoImplicit false

/-! # Nested blocks

A run of `Expansion.expandFrom` goes through the lines of a forest from front to back. It passes plain
lines, and where a block begins, one expansion leaves a forest again, with the top and the bottom of
the macro as plain lines and one block less (`expandUse_block`). By induction on the number of
expansions that are left, a run therefore yields `Forest.expansion`, provided that every search for a
closer finds the one of its own block. It does if no block has a stray block inside, and in particular
if no two macros have the same closer. -/

namespace MacroAsm

variable {macros : List Macro}

/-! ## Uses -/

theorem Macro.use?_eq (macros : List Macro) (code : String) :
    Macro.use? macros code =
      macros.findSome? fun m => (m.captures? code).map fun args => (m, args) := by
  simp [Macro.use?, Macro.captures?, Opener.match?, Option.map_map, Function.comp_def]

theorem Macro.use?_eq_none_iff {l : Line} : Macro.use? macros l.code = none ↔ ¬ l.Uses macros := by
  rw [Macro.use?_eq, List.findSome?_eq_none_iff]
  simp [Line.Uses, Option.map_eq_none_iff, Option.isSome_iff_ne_none]

/-- The opener of a block uses the macro of the block. -/
theorem Opening.Clear.use? {o : Opening} (ho : o.Clear macros) :
    Macro.use? macros o.line.code = some (o.mac, o.args) := by
  rw [Macro.use?_eq]
  obtain ⟨hm, hc, honly, -⟩ := ho
  induction macros with
  | nil => simp at hm
  | cons m ms ih =>
    rw [List.findSome?_cons]
    cases hcm : m.captures? o.line.code with
    | none =>
      rcases List.mem_cons.1 hm with rfl | hm'
      · simp [hcm] at hc
      · exact ih hm' fun n hn => honly n (List.mem_cons_of_mem _ hn)
    | some args =>
      obtain rfl := honly m List.mem_cons_self (by simp [hcm])
      obtain rfl := Option.some.inj (hcm.symm.trans hc)
      rfl

namespace Expansion

theorem seek_eq (macros : List Macro) (before lines : List Line) :
    seek macros before lines =
      (before.reverse ++ (seek macros [] lines).1, (seek macros [] lines).2) := by
  induction lines generalizing before with
  | nil => simp [seek]
  | cons l rest ih =>
    cases hu : Macro.use? macros l.code with
    | none =>
      simp only [seek, hu]
      rw [ih (l :: before), ih [l]]
      simp
    | some u => simp [seek, hu]

/-- A line that uses no macro is kept. -/
theorem expandFrom_cons_of_not_uses {l : Line} (hl : ¬ l.Uses macros) (left uid : Nat)
    (rest : List Line) :
    expandFrom macros left uid (l :: rest) =
      (l :: (expandFrom macros left uid rest).1, (expandFrom macros left uid rest).2) := by
  have hs : seek macros [] (l :: rest) =
      (l :: (seek macros [] rest).1, (seek macros [] rest).2) := by
    simp only [seek, Macro.use?_eq_none_iff.2 hl]
    rw [seek_eq]
    rfl
  unfold expandFrom
  rw [hs]
  rcases seek macros [] rest with ⟨kept, _ | u⟩
  · rfl
  · cases left with
    | zero => rfl
    | succ left => rfl

/-- A line that uses a macro is expanded, and the run goes on from there. -/
theorem expandFrom_cons_of_use {l : Line} {m : Macro} {args : List String}
    (hl : Macro.use? macros l.code = some (m, args)) (left uid : Nat) (rest : List Line) :
    expandFrom macros (left + 1) uid (l :: rest) =
      let (pending, messages) := expandUse ⟨l, m, args, rest⟩ uid
      let (done, more) := expandFrom macros left (uid + 1) pending
      (done, messages ++ more) := by
  rw [expandFrom]
  simp [seek, hl]

end Expansion

/-! ## One block -/

namespace Opening

open Forest (ofLines)

variable {o : Opening} {uid : Nat} {inside rest : Forest} {closer : Line}

/-- The forest that is left of a block and what follows when the block is expanded. -/
def opened (o : Opening) (uid : Nat) (inside : Forest) (closer : Line) (rest : Forest) : Forest :=
  ofLines (o.top uid) ++ (inside ++ (ofLines (o.bottom uid closer) ++ rest))

theorem lines_opened :
    (o.opened uid inside closer rest).lines =
      o.top uid ++ inside.lines ++ o.bottom uid closer ++ rest.lines := by
  simp [opened]

theorem count_opened : (o.opened uid inside closer rest).count = inside.count + rest.count := by
  simp [opened]

theorem expansion_opened :
    (o.opened uid inside closer rest).expansion (uid + 1) =
      (Forest.block o inside closer rest).expansion uid := by
  simp [opened, Forest.expansion_append, Forest.expansion]

theorem bracketed_opened (hp : o.FillsPlain macros uid closer) (hi : inside.Bracketed macros)
    (hr : rest.Bracketed macros) : (o.opened uid inside closer rest).Bracketed macros := by
  simp only [opened, Forest.bracketed_append, Forest.bracketed_ofLines]
  exact ⟨hp.plain_top, hi, hp.plain_bottom, hr⟩

theorem fillable_opened (hi : inside.Fillable macros (uid + 1))
    (hr : rest.Fillable macros (uid + 1 + inside.count)) :
    (o.opened uid inside closer rest).Fillable macros (uid + 1) := by
  simp only [opened, Forest.fillable_append, Forest.fillable_ofLines, Forest.count_ofLines]
  exact ⟨trivial, hi, trivial, hr⟩

theorem separated_opened :
    (o.opened uid inside closer rest).Separated ↔ inside.Separated ∧ rest.Separated := by
  simp [opened, Forest.separated_append, Forest.separated_ofLines]

end Opening

namespace Expansion

variable {o : Opening} {uid : Nat} {inside rest : Forest} {closer : Line}

/-- Where the search finds the closer of the block itself, the expansion of a use opens the block and
    reports nothing. -/
theorem expandUse_of_found {text : String} (hw : o.mac.wraps = true)
    (htop : fillLines o.mac.top o.args uid o.line = .ok (o.top uid))
    (hbottom : fillLines o.mac.bottom o.args uid closer = .ok (o.bottom uid closer))
    (htext : closerText o.mac o.args uid = .ok text)
    (hfound : findCloser o.mac text 0 [] (inside.lines ++ closer :: rest.lines) =
      some ⟨inside.lines, closer, rest.lines⟩) :
    expandUse ⟨o.line, o.mac, o.args, inside.lines ++ closer :: rest.lines⟩ uid =
      ((o.opened uid inside closer rest).lines, []) := by
  simp [expandUse, htop, hw, htext, hfound, bottomLines, hbottom, Opening.lines_opened]

theorem expandUse_block (hw : o.mac.wraps = true) (hfixed : o.mac.ClosesFixed)
    (hp : o.FillsPlain macros uid closer)
    (hfound : findCloser o.mac o.mac.closing 0 [] (inside.lines ++ closer :: rest.lines) =
      some ⟨inside.lines, closer, rest.lines⟩) :
    expandUse ⟨o.line, o.mac, o.args, inside.lines ++ closer :: rest.lines⟩ uid =
      ((o.opened uid inside closer rest).lines, []) :=
  expandUse_of_found hw hp.fillLines_top hp.fillLines_bottom (hfixed.closerText o.args uid) hfound

/-! ## A whole run -/

/-- A forest in which no block has a stray block inside is expanded block by block. -/
theorem expandFrom_forest (hw : ∀ m ∈ macros, m.wraps = true)
    (hfixed : ∀ m ∈ macros, m.ClosesFixed) {f : Forest} {left uid : Nat}
    (hf : f.Bracketed macros) (hp : f.Fillable macros uid) (hs : f.Separated)
    (hcount : f.count ≤ left) :
    expandFrom macros left uid f.lines = (f.expansion uid, []) := by
  -- expansions use up what is left; plain lines in front of a block only shorten the forest
  induction left using Nat.strongRecOn generalizing f uid with
  | ind left ihl =>
    induction f with
    | nil => simp [Forest.lines, expandFrom, seek, Forest.expansion]
    | line l rest ihf =>
      rw [Forest.lines, expandFrom_cons_of_not_uses hf.1.1, ihf hf.2 hp hs hcount]
      rfl
    | block o inside closer rest =>
      obtain ⟨ho, hc, hu, hbi, hbr⟩ := hf
      obtain ⟨hplain, hfi, hfr⟩ := hp
      obtain ⟨hstray, hsi, hsr⟩ := hs
      rw [Forest.count] at hcount
      obtain ⟨left, rfl⟩ : ∃ k, left = k + 1 := ⟨left - 1, by omega⟩
      have hfound := (findCloser_inside_iff ho hbi hc hu rest.lines).2 hstray
      -- what is left is again a forest, of one block less, so the next expansions are known
      have hrest : (o.opened uid inside closer rest).count ≤ left := by
        rw [Opening.count_opened]
        omega
      rw [Forest.lines, expandFrom_cons_of_use ho.use?,
        expandUse_block (hw _ ho.mem) (hfixed _ ho.mem) hplain hfound]
      simp only
      rw [ihl left (Nat.lt_succ_self left) (Opening.bracketed_opened hplain hbi hbr)
        (Opening.fillable_opened hfi hfr) (Opening.separated_opened.2 ⟨hsi, hsr⟩) hrest,
        Opening.expansion_opened]
      rfl

end Expansion

/-! ## Macros with different closers -/

namespace Forest

/-- With different closers no block is a stray one. -/
theorem strays_eq_zero (hd : (macros.map Macro.closing).Nodup) {m : Macro} (hm : m ∈ macros)
    {f : Forest} (hf : f.Bracketed macros) : f.strays m = 0 := by
  induction f with
  | nil => rfl
  | line l rest ih => exact ih hf.2
  | block o inside closer rest ihi ihr =>
    obtain ⟨ho, -, -, hi, hr⟩ := hf
    have hinj : o.mac.closing = m.closing → o.mac = m :=
      fun h => List.inj_on_of_nodup_map hd ho.mem hm h
    have hnot : ¬ (o.mac ≠ m ∧ o.mac.closing = m.closing) := fun h => h.1 (hinj h.2)
    rw [strays, if_neg hnot, ihi hi, ihr hr]

theorem separated_of_nodup (hd : (macros.map Macro.closing).Nodup) {f : Forest}
    (hf : f.Bracketed macros) : f.Separated := by
  induction f with
  | nil => trivial
  | line l rest ih => exact ih hf.2
  | block o inside closer rest ihi ihr =>
    obtain ⟨ho, -, -, hi, hr⟩ := hf
    exact ⟨strays_eq_zero hd ho.mem hi, ihi hi, ihr hr⟩

end Forest

/-- **Blocks of macros with different closers expand as they are nested.** Each opener becomes the top
    of its macro and the closer of the same block the bottom, both filled with the operands of that
    opener and the number of its expansion, and nothing is reported. -/
theorem MacroTable.expand_lines_of_nodup_closers (table : MacroTable) (f : Forest)
    (hwraps : ∀ m ∈ table.values, m.wraps = true) (hfixed : ∀ m ∈ table.values, m.ClosesFixed)
    (hclosers : (table.values.map Macro.closing).Nodup) (hf : f.Bracketed table.values)
    (hfill : f.Fillable table.values 1) (hcount : f.count ≤ 10000) :
    table.expand f.lines = (f.expansion 1, .empty) := by
  have hrun := Expansion.expandFrom_forest hwraps hfixed hf hfill
    (Forest.separated_of_nodup hclosers hf) hcount
  simp only [MacroTable.expand, Expansion.limit, hrun]
  rfl

/-! ### An example -/

namespace Forest

/-- A macro `r %register` that repeats a block. -/
def repeating (closer : String) : Macro :=
  ⟨[.char 'r', .gap, .operand .register], some closer, ["l_%uid:"], ["jnz %1, l_%uid"], true, none⟩

/-- A macro `s %register` that saves a register around a block. -/
def saving (closer : String) : Macro :=
  ⟨[.char 's', .gap, .operand .register], some closer, ["push %1"], ["pop %1"], true, none⟩

/-- Both macros in a table. -/
def savingTable (closer closer' : String) : MacroTable :=
  (Registry.empty.insert "r %register" (repeating closer)).insert "s %register" (saving closer')

/-- A line of code. -/
def codeLine (index : Nat) (code : String) : Line :=
  ⟨"main", index, code, code, none⟩

/-- The opener of a block of such a macro. -/
def openingOf (m : Macro) (index : Nat) (code register : String) : Opening :=
  ⟨codeLine index code, m, [register]⟩

/-- A loop that saves a register around another loop, and a block behind it. -/
def savingLoops : Forest :=
  .block (openingOf (repeating "end r") 0 "r &r1" "&r1")
    (.block (openingOf (saving "end s") 1 "s   &r2" "&r2")
      (.block (openingOf (repeating "end r") 2 "r &r3" "&r3")
        (.line (codeLine 3 "out &r3") .nil) (codeLine 4 "end   r") .nil)
      (codeLine 5 "end s") .nil)
    (codeLine 6 "end r")
    (.block (openingOf (saving "end s") 7 "s &r4" "&r4") .nil (codeLine 8 "end s") .nil)

/-- The loops expand as they are nested. -/
theorem expand_savingLoops :
    (savingTable "end r" "end s").expand savingLoops.lines = (savingLoops.expansion 1, .empty) ∧
      (savingLoops.expansion 1).map Line.code =
        ["l_1:", "push &r2", "l_3:", "out &r3", "jnz &r3, l_3", "pop &r2", "jnz &r1, l_1",
          "push &r4", "pop &r4"] :=
  ⟨MacroTable.expand_lines_of_nodup_closers (savingTable "end r" "end s") savingLoops
    (by decide +kernel) (by decide +kernel) (by decide +kernel) (by decide +kernel)
    (by decide +kernel) (by decide +kernel), by decide +kernel⟩

end Forest

end MacroAsm
