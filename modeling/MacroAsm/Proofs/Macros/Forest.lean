import MacroAsm.Macros.Expansion

set_option autoImplicit false

/-! # Forests of blocks

Code whose uses of macros are closed in the order opposite to the one in which they are opened is a
forest: plain lines and blocks, and in a block again a forest. A forest is given apart from the lines
that it stands for, so that what its expansion should be can be said by recursion on it
(`Forest.expansion`): the top and the bottom of a macro stand around the expansion of what is inside,
and the uses are numbered in the order of their openers.

Nothing here looks at how a closer is searched. -/

namespace MacroAsm

variable {macros : List Macro}

/-! ## Lines -/

/-- The text that closes a block of a macro; empty where the macro has no closer. -/
def Macro.closing (m : Macro) : String :=
  m.closer.getD ""

/-- Whether the closer of a macro is the same for all its uses: it has no placeholder. -/
def Macro.ClosesFixed (m : Macro) : Prop :=
  (Placeholder.cut m.closing).tokens = []

instance (m : Macro) : Decidable m.ClosesFixed :=
  inferInstanceAs (Decidable ((Placeholder.cut m.closing).tokens = []))

namespace Line

/-- Whether a line uses one of some macros. -/
def Uses (macros : List Macro) (l : Line) : Prop :=
  ∃ m ∈ macros, (m.captures? l.code).isSome = true

/-- Whether a line is the closer of one of some macros, in normal spacing. -/
def Ends (macros : List Macro) (l : Line) : Prop :=
  ∃ m ∈ macros, Expansion.closes m.closing l.code = true

/-- Whether a line is neither. -/
def Plain (macros : List Macro) (l : Line) : Prop :=
  ¬ l.Uses macros ∧ ¬ l.Ends macros

instance (l : Line) : Decidable (l.Uses macros) :=
  inferInstanceAs (Decidable (∃ m ∈ macros, (m.captures? l.code).isSome = true))

instance (l : Line) : Decidable (l.Ends macros) :=
  inferInstanceAs (Decidable (∃ m ∈ macros, Expansion.closes m.closing l.code = true))

instance (l : Line) : Decidable (l.Plain macros) :=
  inferInstanceAs (Decidable (¬ l.Uses macros ∧ ¬ l.Ends macros))

end Line

/-- A result without an error is its value, whatever the default. -/
theorem eq_ok_of_isOk {ε α : Type} {x : Except ε α} {a : α} (h : x.isOk = true) :
    x = .ok (x.toOption.getD a) := by
  cases x with
  | ok b => rfl
  | error e => simp [Except.isOk, Except.toBool] at h

/-- A line that opens a block, the macro that it uses and the operands of the use. -/
structure Opening where
  line : Line
  mac : Macro
  args : List String

namespace Opening

/-- The lines that take the place of the opener. -/
def top (o : Opening) (uid : Nat) : List Line :=
  (Expansion.fillLines o.mac.top o.args uid o.line).toOption.getD []

/-- The lines that take the place of a closer. -/
def bottom (o : Opening) (uid : Nat) (closer : Line) : List Line :=
  (Expansion.fillLines o.mac.bottom o.args uid closer).toOption.getD []

/-- An opener uses exactly one of some macros and closes none. -/
structure Clear (macros : List Macro) (o : Opening) : Prop where
  mem : o.mac ∈ macros
  captures : o.mac.captures? o.line.code = some o.args
  only : ∀ m ∈ macros, (m.captures? o.line.code).isSome = true → m = o.mac
  not_ends : ¬ o.line.Ends macros

instance (o : Opening) : Decidable (o.Clear macros) :=
  decidable_of_iff
    (o.mac ∈ macros ∧ o.mac.captures? o.line.code = some o.args ∧
      (∀ m ∈ macros, (m.captures? o.line.code).isSome = true → m = o.mac) ∧ ¬ o.line.Ends macros)
    ⟨fun h => ⟨h.1, h.2.1, h.2.2.1, h.2.2.2⟩, fun h => ⟨h.1, h.2, h.3, h.4⟩⟩

/-- The lines of the macro can be filled, and what they become is plain. -/
structure FillsPlain (macros : List Macro) (o : Opening) (uid : Nat) (closer : Line) : Prop where
  isOk_top : (Expansion.fillLines o.mac.top o.args uid o.line).isOk = true
  isOk_bottom : (Expansion.fillLines o.mac.bottom o.args uid closer).isOk = true
  plain_top : ∀ l ∈ o.top uid, l.Plain macros
  plain_bottom : ∀ l ∈ o.bottom uid closer, l.Plain macros

instance (o : Opening) (uid : Nat) (closer : Line) : Decidable (o.FillsPlain macros uid closer) :=
  decidable_of_iff
    ((Expansion.fillLines o.mac.top o.args uid o.line).isOk = true ∧
      (Expansion.fillLines o.mac.bottom o.args uid closer).isOk = true ∧
      (∀ l ∈ o.top uid, l.Plain macros) ∧ ∀ l ∈ o.bottom uid closer, l.Plain macros)
    ⟨fun h => ⟨h.1, h.2.1, h.2.2.1, h.2.2.2⟩, fun h => ⟨h.1, h.2, h.3, h.4⟩⟩

theorem FillsPlain.fillLines_top {o : Opening} {uid : Nat} {closer : Line}
    (h : o.FillsPlain macros uid closer) :
    Expansion.fillLines o.mac.top o.args uid o.line = .ok (o.top uid) :=
  eq_ok_of_isOk h.isOk_top

theorem FillsPlain.fillLines_bottom {o : Opening} {uid : Nat} {closer : Line}
    (h : o.FillsPlain macros uid closer) :
    Expansion.fillLines o.mac.bottom o.args uid closer = .ok (o.bottom uid closer) :=
  eq_ok_of_isOk h.isOk_bottom

end Opening

/-! ## Forests -/

/-- Plain lines and blocks, one after the other. -/
inductive Forest where
  | nil
  | line (l : Line) (rest : Forest)
  | block (o : Opening) (inside : Forest) (closer : Line) (rest : Forest)

namespace Forest

/-- The lines of a forest. -/
def lines : Forest → List Line
  | nil => []
  | line l rest => l :: rest.lines
  | block o inside closer rest => o.line :: (inside.lines ++ closer :: rest.lines)

/-- How many blocks a forest has, at any depth. -/
def count : Forest → Nat
  | nil => 0
  | line _ rest => rest.count
  | block _ inside _ rest => inside.count + 1 + rest.count

/-- The expansion of a forest whose first opener has some number. -/
def expansion : Nat → Forest → List Line
  | _, nil => []
  | uid, line l rest => l :: rest.expansion uid
  | uid, block o inside closer rest =>
    o.top uid ++ inside.expansion (uid + 1) ++ o.bottom uid closer ++
      rest.expansion (uid + 1 + inside.count)

/-- Every opener uses exactly one macro, every closer closes the macro of its opener and uses none,
    and all other lines do neither. -/
def Bracketed (macros : List Macro) : Forest → Prop
  | nil => True
  | line l rest => l.Plain macros ∧ rest.Bracketed macros
  | block o inside closer rest =>
    o.Clear macros ∧ Expansion.closes o.mac.closing closer.code = true ∧ ¬ closer.Uses macros ∧
      inside.Bracketed macros ∧ rest.Bracketed macros

/-- The tops and bottoms of all blocks can be filled, and what they become is plain. -/
def Fillable (macros : List Macro) : Nat → Forest → Prop
  | _, nil => True
  | uid, line _ rest => rest.Fillable macros uid
  | uid, block o inside closer rest =>
    o.FillsPlain macros uid closer ∧
      inside.Fillable macros (uid + 1) ∧ rest.Fillable macros (uid + 1 + inside.count)

instance decidableBracketed : (f : Forest) → Decidable (f.Bracketed macros)
  | nil => .isTrue trivial
  | line l rest =>
    have := decidableBracketed rest
    inferInstanceAs (Decidable (l.Plain macros ∧ rest.Bracketed macros))
  | block o inside closer rest =>
    have := decidableBracketed inside
    have := decidableBracketed rest
    inferInstanceAs (Decidable (o.Clear macros ∧
      Expansion.closes o.mac.closing closer.code = true ∧ ¬ closer.Uses macros ∧
      inside.Bracketed macros ∧ rest.Bracketed macros))

instance decidableFillable : (uid : Nat) → (f : Forest) → Decidable (f.Fillable macros uid)
  | _, nil => .isTrue trivial
  | uid, line _ rest => decidableFillable uid rest
  | uid, block o inside closer rest =>
    have := decidableFillable (uid + 1) inside
    have := decidableFillable (uid + 1 + inside.count) rest
    inferInstanceAs (Decidable (o.FillsPlain macros uid closer ∧
      inside.Fillable macros (uid + 1) ∧ rest.Fillable macros (uid + 1 + inside.count)))

/-! ## Putting forests together -/

/-- One forest behind another. -/
def append : Forest → Forest → Forest
  | nil, g => g
  | line l rest, g => line l (rest.append g)
  | block o inside closer rest, g => block o inside closer (rest.append g)

instance : Append Forest := ⟨append⟩

@[simp] theorem nil_append (g : Forest) : nil ++ g = g := rfl

@[simp] theorem line_append (l : Line) (rest g : Forest) : line l rest ++ g = line l (rest ++ g) :=
  rfl

@[simp] theorem block_append (o : Opening) (inside : Forest) (closer : Line) (rest g : Forest) :
    block o inside closer rest ++ g = block o inside closer (rest ++ g) := rfl

@[simp] theorem lines_append (f g : Forest) : (f ++ g).lines = f.lines ++ g.lines := by
  induction f with
  | nil => rfl
  | line l rest ih => simp [lines, ih]
  | block o inside closer rest _ ih => simp [lines, ih]

@[simp] theorem count_append (f g : Forest) : (f ++ g).count = f.count + g.count := by
  induction f with
  | nil => simp [count]
  | line l rest ih => simpa [count] using ih
  | block o inside closer rest _ ih => simp [count, ih]; omega

theorem expansion_append (f g : Forest) (uid : Nat) :
    (f ++ g).expansion uid = f.expansion uid ++ g.expansion (uid + f.count) := by
  induction f generalizing uid with
  | nil => simp [expansion, count]
  | line l rest ih => simp [expansion, count, ih]
  | block o inside closer rest _ ih =>
    have h : uid + 1 + inside.count + rest.count = uid + (inside.count + 1 + rest.count) := by omega
    simp only [block_append, expansion, count, ih, List.append_assoc, h]

theorem bracketed_append {f g : Forest} :
    (f ++ g).Bracketed macros ↔ f.Bracketed macros ∧ g.Bracketed macros := by
  induction f with
  | nil => simp [Bracketed]
  | line l rest ih => simp [Bracketed, ih, and_assoc]
  | block o inside closer rest _ ih => simp [Bracketed, ih, and_assoc]

theorem fillable_append {f g : Forest} {uid : Nat} :
    (f ++ g).Fillable macros uid ↔
      f.Fillable macros uid ∧ g.Fillable macros (uid + f.count) := by
  induction f generalizing uid with
  | nil => simp [Fillable, count]
  | line l rest ih => simp [Fillable, count, ih]
  | block o inside closer rest _ ih =>
    have h : uid + 1 + inside.count + rest.count = uid + (inside.count + 1 + rest.count) := by omega
    simp only [block_append, Fillable, count, ih, and_assoc, h]

/-! ## Forests of plain lines -/

/-- Some lines as a forest without blocks. -/
def ofLines (ls : List Line) : Forest :=
  ls.foldr line nil

@[simp] theorem lines_ofLines (ls : List Line) : (ofLines ls).lines = ls := by
  induction ls with
  | nil => rfl
  | cons l ls ih => simpa [ofLines, lines] using ih

@[simp] theorem count_ofLines (ls : List Line) : (ofLines ls).count = 0 := by
  induction ls with
  | nil => rfl
  | cons l ls ih => simpa [ofLines, count] using ih

@[simp] theorem expansion_ofLines (ls : List Line) (uid : Nat) : (ofLines ls).expansion uid = ls := by
  induction ls with
  | nil => rfl
  | cons l ls ih => simpa [ofLines, expansion] using ih

theorem bracketed_ofLines {ls : List Line} :
    (ofLines ls).Bracketed macros ↔ ∀ l ∈ ls, l.Plain macros := by
  induction ls with
  | nil => simp [ofLines, Bracketed]
  | cons l ls ih => simpa [ofLines, Bracketed] using fun _ => ih

theorem fillable_ofLines (ls : List Line) (uid : Nat) : (ofLines ls).Fillable macros uid := by
  induction ls with
  | nil => trivial
  | cons l ls ih => simpa [ofLines, Fillable] using ih

end Forest

end MacroAsm
