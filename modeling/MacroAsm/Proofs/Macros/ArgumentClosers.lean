import MacroAsm.Proofs.Macros.SharedClosers

set_option autoImplicit false

/-! # Closers with operands

Where the closer of a macro has placeholders, each block has a closer of its own, filled with the
operands of its opener. The search for the closer of a block counts every use of the macro up, but
only the lines with this one closer down. A block that is closed otherwise and lies inside therefore
leaves the count too high (`Expansion.findCloser_others`), and with the count too high no line that
follows is ever the closer: the block that holds it is not closed at all. So in code that is properly
bracketed a run cuts out the blocks as they are nested exactly if all blocks inside a block have its
closer, and otherwise reports that some block is not closed. -/

namespace MacroAsm

variable {macros : List Macro} {m : Macro} {closers : List String}

/-! ## Code of uses of one macro -/

/-- A line that neither uses a macro nor is one of some closers. -/
def Line.Inert (macros : List Macro) (closers : List String) (l : Line) : Prop :=
  ¬ l.Uses macros ∧ ∀ t ∈ closers, Expansion.closes t l.code = false

instance (l : Line) : Decidable (l.Inert macros closers) :=
  inferInstanceAs (Decidable (¬ l.Uses macros ∧ ∀ t ∈ closers, Expansion.closes t l.code = false))

namespace Opening

/-- The text that closes a block: the closer of its macro, filled with the operands of its opener. -/
def closing (o : Opening) (uid : Nat) : String :=
  (Expansion.closerText o.mac o.args uid).toOption.getD ""

/-- An opener is a use of a macro, its closer is what closes it and uses none. -/
structure ClosedBy (macros : List Macro) (m : Macro) (closers : List String) (o : Opening)
    (uid : Nat) (closer : Line) : Prop where
  mac_eq : o.mac = m
  use? : Macro.use? macros o.line.code = some (o.mac, o.args)
  isOk_closer : (Expansion.closerText o.mac o.args uid).isOk = true
  mem_closers : o.closing uid ∈ closers
  closes : Expansion.closes (o.closing uid) closer.code = true
  not_uses : ¬ closer.Uses macros

instance (o : Opening) (uid : Nat) (closer : Line) :
    Decidable (o.ClosedBy macros m closers uid closer) :=
  decidable_of_iff
    (o.mac = m ∧ Macro.use? macros o.line.code = some (o.mac, o.args) ∧
      (Expansion.closerText o.mac o.args uid).isOk = true ∧ o.closing uid ∈ closers ∧
      Expansion.closes (o.closing uid) closer.code = true ∧ ¬ closer.Uses macros)
    ⟨fun h => ⟨h.1, h.2.1, h.2.2.1, h.2.2.2.1, h.2.2.2.2.1, h.2.2.2.2.2⟩,
      fun h => ⟨h.1, h.2, h.3, h.4, h.5, h.6⟩⟩

/-- The lines of the macro can be filled, and what they become is inert. -/
structure FillsInert (macros : List Macro) (closers : List String) (o : Opening) (uid : Nat)
    (closer : Line) : Prop where
  isOk_top : (Expansion.fillLines o.mac.top o.args uid o.line).isOk = true
  isOk_bottom : (Expansion.fillLines o.mac.bottom o.args uid closer).isOk = true
  inert_top : ∀ l ∈ o.top uid, l.Inert macros closers
  inert_bottom : ∀ l ∈ o.bottom uid closer, l.Inert macros closers

instance (o : Opening) (uid : Nat) (closer : Line) :
    Decidable (o.FillsInert macros closers uid closer) :=
  decidable_of_iff
    ((Expansion.fillLines o.mac.top o.args uid o.line).isOk = true ∧
      (Expansion.fillLines o.mac.bottom o.args uid closer).isOk = true ∧
      (∀ l ∈ o.top uid, l.Inert macros closers) ∧
      ∀ l ∈ o.bottom uid closer, l.Inert macros closers)
    ⟨fun h => ⟨h.1, h.2.1, h.2.2.1, h.2.2.2⟩, fun h => ⟨h.1, h.2, h.3, h.4⟩⟩

theorem FillsInert.fillLines_top {o : Opening} {uid : Nat} {closer : Line}
    (h : o.FillsInert macros closers uid closer) :
    Expansion.fillLines o.mac.top o.args uid o.line = .ok (o.top uid) :=
  eq_ok_of_isOk h.isOk_top

theorem FillsInert.fillLines_bottom {o : Opening} {uid : Nat} {closer : Line}
    (h : o.FillsInert macros closers uid closer) :
    Expansion.fillLines o.mac.bottom o.args uid closer = .ok (o.bottom uid closer) :=
  eq_ok_of_isOk h.isOk_bottom

theorem ClosedBy.mem {o : Opening} {uid : Nat} {closer : Line}
    (h : o.ClosedBy macros m closers uid closer) : m ∈ macros := by
  obtain ⟨n, hn, hmatch⟩ := List.exists_of_findSome?_eq_some (Macro.use?_eq _ _ ▸ h.use?)
  obtain ⟨args, -, heq⟩ := Option.map_eq_some_iff.1 hmatch
  rw [← h.mac_eq, ← (Prod.mk.inj heq).1]
  exact hn

theorem ClosedBy.captures {o : Opening} {uid : Nat} {closer : Line}
    (h : o.ClosedBy macros m closers uid closer) : (m.captures? o.line.code).isSome = true := by
  obtain ⟨n, -, hmatch⟩ := List.exists_of_findSome?_eq_some (Macro.use?_eq _ _ ▸ h.use?)
  obtain ⟨args, hargs, heq⟩ := Option.map_eq_some_iff.1 hmatch
  rw [← h.mac_eq, ← (Prod.mk.inj heq).1, hargs]
  rfl

theorem ClosedBy.closerText {o : Opening} {uid : Nat} {closer : Line}
    (h : o.ClosedBy macros m closers uid closer) :
    Expansion.closerText o.mac o.args uid = .ok (o.closing uid) :=
  eq_ok_of_isOk h.isOk_closer

end Opening

namespace Forest

/-- Every opener uses one macro, every closer is the closer of its opener, and all other lines,
    those that expansions leave among them, are inert. The first opener has some number. -/
def Nests (macros : List Macro) (m : Macro) (closers : List String) : Nat → Forest → Prop
  | _, nil => True
  | uid, line l rest => l.Inert macros closers ∧ rest.Nests macros m closers uid
  | uid, block o inside closer rest =>
    o.ClosedBy macros m closers uid closer ∧ o.FillsInert macros closers uid closer ∧
      inside.Nests macros m closers (uid + 1) ∧
      rest.Nests macros m closers (uid + 1 + inside.count)

instance decidableNests : (uid : Nat) → (f : Forest) → Decidable (f.Nests macros m closers uid)
  | _, nil => .isTrue trivial
  | uid, line l rest =>
    have := decidableNests uid rest
    inferInstanceAs (Decidable (l.Inert macros closers ∧ rest.Nests macros m closers uid))
  | uid, block o inside closer rest =>
    have := decidableNests (uid + 1) inside
    have := decidableNests (uid + 1 + inside.count) rest
    inferInstanceAs (Decidable (o.ClosedBy macros m closers uid closer ∧
      o.FillsInert macros closers uid closer ∧ inside.Nests macros m closers (uid + 1) ∧
      rest.Nests macros m closers (uid + 1 + inside.count)))

/-- How many blocks are closed by another text. -/
def others (text : String) : Nat → Forest → Nat
  | _, nil => 0
  | uid, line _ rest => rest.others text uid
  | uid, block o inside _ rest =>
    (if o.closing uid = text then 0 else 1) + inside.others text (uid + 1) +
      rest.others text (uid + 1 + inside.count)

/-- Whether all blocks inside a block are closed by the same text as this block. -/
def Uniform : Nat → Forest → Prop
  | _, nil => True
  | uid, line _ rest => rest.Uniform uid
  | uid, block o inside _ rest =>
    inside.others (o.closing uid) (uid + 1) = 0 ∧ inside.Uniform (uid + 1) ∧
      rest.Uniform (uid + 1 + inside.count)

instance decidableUniform : (uid : Nat) → (f : Forest) → Decidable (f.Uniform uid)
  | _, nil => .isTrue trivial
  | uid, line _ rest => decidableUniform uid rest
  | uid, block o inside _ rest =>
    have := decidableUniform (uid + 1) inside
    have := decidableUniform (uid + 1 + inside.count) rest
    inferInstanceAs (Decidable (inside.others (o.closing uid) (uid + 1) = 0 ∧
      inside.Uniform (uid + 1) ∧ rest.Uniform (uid + 1 + inside.count)))

/-! ### Putting forests together -/

theorem nests_append {f g : Forest} {uid : Nat} :
    (f ++ g).Nests macros m closers uid ↔
      f.Nests macros m closers uid ∧ g.Nests macros m closers (uid + f.count) := by
  induction f generalizing uid with
  | nil => simp [Nests, count]
  | line l rest ih => simp [Nests, count, ih, and_assoc]
  | block o inside closer rest _ ih =>
    have h : uid + 1 + inside.count + rest.count = uid + (inside.count + 1 + rest.count) := by omega
    simp only [block_append, Nests, count, ih, and_assoc, h]

theorem nests_ofLines {ls : List Line} {uid : Nat} :
    (ofLines ls).Nests macros m closers uid ↔ ∀ l ∈ ls, l.Inert macros closers := by
  induction ls with
  | nil => simp [ofLines, Nests]
  | cons l ls ih => simpa [ofLines, Nests] using fun _ => ih

theorem uniform_append {f g : Forest} {uid : Nat} :
    (f ++ g).Uniform uid ↔ f.Uniform uid ∧ g.Uniform (uid + f.count) := by
  induction f generalizing uid with
  | nil => simp [Uniform, count]
  | line l rest ih => simpa [Uniform, count] using ih
  | block o inside closer rest _ ih =>
    have h : uid + 1 + inside.count + rest.count = uid + (inside.count + 1 + rest.count) := by omega
    simp only [block_append, Uniform, count, ih, and_assoc, h]

theorem uniform_ofLines (ls : List Line) (uid : Nat) : (ofLines ls).Uniform uid := by
  induction ls with
  | nil => trivial
  | cons l ls ih => simpa [ofLines, Uniform] using ih

end Forest

namespace Opening

variable {o : Opening} {uid : Nat} {inside rest : Forest} {closer : Line}

theorem nests_opened (hfill : o.FillsInert macros closers uid closer)
    (hi : inside.Nests macros m closers (uid + 1))
    (hr : rest.Nests macros m closers (uid + 1 + inside.count)) :
    (o.opened uid inside closer rest).Nests macros m closers (uid + 1) := by
  simp only [opened, Forest.nests_append, Forest.nests_ofLines, Forest.count_ofLines]
  exact ⟨hfill.inert_top, hi, hfill.inert_bottom, hr⟩

theorem uniform_opened :
    (o.opened uid inside closer rest).Uniform (uid + 1) ↔
      inside.Uniform (uid + 1) ∧ rest.Uniform (uid + 1 + inside.count) := by
  simp [opened, Forest.uniform_append, Forest.uniform_ofLines]

end Opening

/-! ## The search for a closer -/

namespace Expansion

variable {o : Opening} {uid : Nat} {inside rest : Forest} {closer : Line}

theorem findCloser_cons_inert (hm : m ∈ macros) {text : String} (htext : text ∈ closers) {l : Line}
    (hl : l.Inert macros closers) (depth : Nat) (before tail : List Line) :
    findCloser m text depth before (l :: tail) = findCloser m text depth (l :: before) tail := by
  simp [findCloser, not_captures_of_not_uses hl.1 hm, hl.2 text htext]

/-- An opener is counted up, whatever its operands. -/
theorem findCloser_cons_opening (ho : o.ClosedBy macros m closers uid closer) (text : String)
    (depth : Nat) (before tail : List Line) :
    findCloser m text depth before (o.line :: tail) =
      findCloser m text (depth + 1) (o.line :: before) tail := by
  simp [findCloser, ho.captures]

/-- A closer is counted down only if it is the one that is searched. -/
theorem findCloser_cons_closing (ho : o.ClosedBy macros m closers uid closer) (text : String)
    (depth : Nat) (before tail : List Line) :
    findCloser m text (depth + 1) before (closer :: tail) =
      findCloser m text (depth + if o.closing uid = text then 0 else 1) (closer :: before) tail := by
  have hcloses : closes text closer.code = decide (o.closing uid = text) :=
    closes_eq_decide_of ho.closes
  have hcaptures := not_captures_of_not_uses ho.not_uses ho.mem
  by_cases h : o.closing uid = text
  · simp [findCloser, hcaptures, hcloses, h]
  · simp [findCloser, hcaptures, hcloses, h]

/-- A closer that is searched ends the search at depth zero. -/
theorem findCloser_zero_closing (ho : o.ClosedBy macros m closers uid closer)
    (before tail : List Line) :
    findCloser m (o.closing uid) 0 before (closer :: tail) =
      some ⟨before.reverse, closer, tail⟩ := by
  simp [findCloser, not_captures_of_not_uses ho.not_uses ho.mem, ho.closes]

/-- Behind a forest the count is higher by the blocks with other closers. -/
theorem findCloser_others (hm : m ∈ macros) {text : String} (htext : text ∈ closers) {f : Forest}
    (hf : f.Nests macros m closers uid) (depth : Nat) (before tail : List Line) :
    findCloser m text depth before (f.lines ++ tail) =
      findCloser m text (depth + f.others text uid) (f.lines.reverse ++ before) tail := by
  induction f generalizing uid depth before tail with
  | nil => simp [Forest.lines, Forest.others]
  | line l rest ih =>
    rw [Forest.lines, List.cons_append, findCloser_cons_inert hm htext hf.1, ih hf.2]
    simp [Forest.others]
  | block o inside closer rest ihi ihr =>
    obtain ⟨ho, -, hi, hr⟩ := hf
    have hlines : (Forest.block o inside closer rest).lines ++ tail =
        o.line :: (inside.lines ++ closer :: (rest.lines ++ tail)) := by
      simp [Forest.lines]
    have hreverse : rest.lines.reverse ++ closer :: (inside.lines.reverse ++ o.line :: before) =
        (Forest.block o inside closer rest).lines.reverse ++ before := by
      simp [Forest.lines]
    have hup : depth + 1 + inside.others text (uid + 1) =
        depth + inside.others text (uid + 1) + 1 := by omega
    have hsum : depth + inside.others text (uid + 1) + (if o.closing uid = text then 0 else 1) +
          rest.others text (uid + 1 + inside.count) =
        depth + (Forest.block o inside closer rest).others text uid := by
      rw [Forest.others]
      omega
    rw [hlines, findCloser_cons_opening ho, ihi hi, hup, findCloser_cons_closing ho, ihr hr,
      hreverse, hsum]

/-- The search from an opener finds the closer of its block if all blocks inside have this closer, and
    nothing otherwise. -/
theorem findCloser_block (ho : o.ClosedBy macros m closers uid closer)
    (hi : inside.Nests macros m closers (uid + 1))
    (hr : rest.Nests macros m closers (uid + 1 + inside.count)) :
    findCloser m (o.closing uid) 0 [] (inside.lines ++ closer :: rest.lines) =
      if inside.others (o.closing uid) (uid + 1) = 0 then some ⟨inside.lines, closer, rest.lines⟩
      else none := by
  rw [findCloser_others ho.mem ho.mem_closers hi, Nat.zero_add, List.append_nil]
  cases hcount : inside.others (o.closing uid) (uid + 1) with
  | zero =>
    rw [findCloser_zero_closing ho, List.reverse_reverse, if_pos rfl]
  | succ d =>
    -- the count is too high here, and the lines behind the block never bring it down
    have hafter := findCloser_others ho.mem ho.mem_closers hr d (closer :: inside.lines.reverse) []
    rw [List.append_nil] at hafter
    rw [findCloser_cons_closing ho, if_pos rfl, Nat.add_zero, hafter, if_neg (Nat.succ_ne_zero d)]
    rfl

/-- A block that is not closed is reported and its opener dropped. -/
theorem expandUse_unclosed (hw : o.mac.wraps = true)
    (ho : o.ClosedBy macros o.mac closers uid closer)
    (hfill : o.FillsInert macros closers uid closer) {tail : List Line}
    (hnone : findCloser o.mac (o.closing uid) 0 [] tail = none) :
    expandUse ⟨o.line, o.mac, o.args, tail⟩ uid =
      (tail, [unclosedMessage o.mac (o.closing uid) o.line]) := by
  simp [expandUse, hfill.fillLines_top, hw, ho.closerText, hnone]

/-! ## A whole run -/

/-- What a run makes of a forest: it cuts out the blocks of the forest exactly if all blocks have the
    closers of those around them, and then it expands them block by block; in any other forest some
    block is not closed. -/
theorem run_nests (hw : m.wraps = true) {f : Forest} {left : Nat}
    (hf : f.Nests macros m closers uid) (hcount : f.count ≤ left) :
    (blocksFrom macros left uid f.lines = f.blocks ↔ f.Uniform uid) ∧
      (f.Uniform uid → expandFrom macros left uid f.lines = (f.expansion uid, [])) ∧
      (¬ f.Uniform uid →
        ∃ text l, unclosedMessage m text l ∈ (expandFrom macros left uid f.lines).2) := by
  -- expansions use up what is left; inert lines in front of a block only shorten the forest
  induction left using Nat.strongRecOn generalizing f uid with
  | ind left ihl =>
    induction f with
    | nil =>
      refine ⟨by simp [Forest.lines, blocksFrom, seek, Forest.blocks, Forest.Uniform], fun _ => ?_,
        fun h => absurd trivial h⟩
      simp [Forest.lines, expandFrom, seek, Forest.expansion]
    | line l rest ihf =>
      obtain ⟨hblocks, hall, hnot⟩ := ihf hf.2 hcount
      rw [Forest.lines, blocksFrom_cons_of_not_uses hf.1.1, expandFrom_cons_of_not_uses hf.1.1]
      refine ⟨hblocks, fun hu => ?_, hnot⟩
      rw [hall hu]
      rfl
    | block o inside closer rest =>
      obtain ⟨ho, hfill, hi, hr⟩ := hf
      obtain rfl : o.mac = m := ho.mac_eq
      rw [Forest.count] at hcount
      obtain ⟨left, rfl⟩ : ∃ k, left = k + 1 := ⟨left - 1, by omega⟩
      have hsearch := findCloser_block ho hi hr
      rw [Forest.lines, blocksFrom_cons_of_use ho.use?, expandFrom_cons_of_use ho.use?,
        Forest.blocks, List.cons.injEq, Prod.mk.injEq, Use.block?, ho.closerText, Forest.Uniform]
      by_cases hothers : inside.others (o.closing uid) (uid + 1) = 0
      · -- what is left is again a forest, of one block less, so the next expansions are known
        have hleft : (o.opened uid inside closer rest).count ≤ left := by
          rw [Opening.count_opened]
          omega
        have hopened : (o.opened uid inside closer rest).blocks = inside.blocks ++ rest.blocks := by
          simp [Opening.opened]
        obtain ⟨hblocks, hall, hnot⟩ :=
          ihl left (Nat.lt_succ_self left) (Opening.nests_opened hfill hi hr) hleft
        rw [if_pos hothers] at hsearch
        rw [expandUse_of_found hw hfill.fillLines_top hfill.fillLines_bottom ho.closerText hsearch,
          ← hopened, hblocks, ← Opening.uniform_opened]
        refine ⟨by simp [hsearch, hothers], fun hu => ?_, fun hu => hnot fun h => hu ⟨hothers, h⟩⟩
        simp only [hall hu.2, Opening.expansion_opened]
        rfl
      · rw [if_neg hothers] at hsearch
        rw [expandUse_unclosed hw ho hfill hsearch]
        refine ⟨by simp [hsearch, hothers], fun hu => absurd hu.1 hothers, fun _ => ?_⟩
        exact ⟨o.closing uid, o.line, List.mem_append_left _ (List.mem_singleton_self _)⟩

end Expansion

/-- **Where blocks whose closers have operands are nested.** In bracketed code of uses of one macro a
    run cuts out the blocks as they are nested exactly if all blocks inside a block, at any depth, are
    closed by the same text as this block. Then each opener becomes the top of the macro and the
    closer of its block the bottom, both filled with the operands of that opener and the number of its
    expansion, and nothing is reported. Otherwise some block is reported as not closed. -/
theorem MacroTable.blocksFrom_iff_uniform (table : MacroTable) (m : Macro) (closers : List String)
    (f : Forest) (hwraps : m.wraps = true) (hf : f.Nests table.values m closers 1)
    (hcount : f.count ≤ 10000) :
    (Expansion.blocksFrom table.values 10000 1 f.lines = f.blocks ↔ f.Uniform 1) ∧
      (f.Uniform 1 → table.expand f.lines = (f.expansion 1, .empty)) ∧
      (¬ f.Uniform 1 →
        ∃ text l, Expansion.unclosedMessage m text l ∈ (table.expand f.lines).2.toList) := by
  obtain ⟨hblocks, hall, hnot⟩ := Expansion.run_nests hwraps hf hcount
  refine ⟨hblocks, fun hu => ?_, fun hu => ?_⟩
  · simp only [MacroTable.expand, Expansion.limit, hall hu]
    rfl
  · simpa only [MacroTable.expand, Expansion.limit, Report.toList_ofList] using hnot hu

/-! ### Examples -/

namespace Forest

/-- The macro `r %register` alone in a table, with a closer that names the register. -/
def repeatingTable : MacroTable :=
  Registry.empty.insert "r %register" (repeating "end %1")

/-- A loop inside a loop over the same register, and behind them a loop over another one. -/
def sameRegister : Forest :=
  .block (openingOf (repeating "end %1") 0 "r &r1" "&r1")
    (.block (openingOf (repeating "end %1") 1 "r &r1" "&r1") .nil (codeLine 2 "end &r1") .nil)
    (codeLine 3 "end   &r1")
    (.block (openingOf (repeating "end %1") 4 "r &r2" "&r2") .nil (codeLine 5 "end &r2") .nil)

/-- Blocks with the same operand may be inside each other, others behind each other. -/
theorem expand_sameRegister :
    Expansion.blocksFrom repeatingTable.values 10000 1 sameRegister.lines = sameRegister.blocks ∧
      repeatingTable.expand sameRegister.lines = (sameRegister.expansion 1, .empty) ∧
      (sameRegister.expansion 1).map Line.code =
        ["l_1:", "l_2:", "jnz &r1, l_2", "jnz &r1, l_1", "l_3:", "jnz &r2, l_3"] := by
  have hu : sameRegister.Uniform 1 := by decide +kernel
  have h := MacroTable.blocksFrom_iff_uniform repeatingTable (repeating "end %1")
    ["end &r1", "end &r2"] sameRegister (by decide) (by decide +kernel) (by decide)
  exact ⟨h.1.2 hu, h.2.1 hu, by decide +kernel⟩

/-- A loop inside a loop over another register. -/
def otherRegister : Forest :=
  .block (openingOf (repeating "end %1") 0 "r &r1" "&r1")
    (.block (openingOf (repeating "end %1") 1 "r &r2" "&r2") .nil (codeLine 2 "end &r2") .nil)
    (codeLine 3 "end &r1") .nil

/-- The outer block is not closed although the code is bracketed. -/
theorem expand_otherRegister_ne :
    (∀ m ∈ repeatingTable.values, m.wraps = true) ∧
      otherRegister.Nests repeatingTable.values (repeating "end %1") ["end &r1", "end &r2"] 1 ∧
      otherRegister.count ≤ 10000 ∧
      (otherRegister.expansion 1).map Line.code =
        ["l_1:", "l_2:", "jnz &r2, l_2", "jnz &r1, l_1"] ∧
      (repeatingTable.expand otherRegister.lines).1.map Line.code =
        ["l_2:", "jnz &r2, l_2", "end &r1"] ∧
      (repeatingTable.expand otherRegister.lines).2.toList =
        [Expansion.unclosedMessage (repeating "end %1") "end &r1" (codeLine 0 "r &r1")] := by
  decide +kernel

end Forest

end MacroAsm
