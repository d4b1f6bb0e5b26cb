import MacroAsm.Proofs.Macros.Runs

set_option autoImplicit false

/-! # Depth-first expansion

Macros without blocks can be expanded line by line: a line that uses one is replaced by the lines of
the macro, and each of these is expanded before the next line of the code is looked at. The relation
`Unfolds` says what this comes to. It has no derivation where the expansion would not end, and at most
one otherwise (`Unfolds.unique`).

`Expansion.expandFrom` puts the lines of a macro in front of the lines that are still to be searched,
so it takes the same uses in the same order. Hence a derivation for some lines is a part of each run
that begins with them (`Unfolds.expandFrom_append`), and a run that does not reach its limit has a
derivation (`exists_unfolds_or_limit`). -/

namespace MacroAsm

variable {macros : List Macro}

/-! ## Uses -/

/-- A line uses a macro, with some operands, and none of the macros in front of it. -/
def Line.UsesFirst (macros : List Macro) (l : Line) (m : Macro) (args : List String) : Prop :=
  ∃ before after, macros = before ++ m :: after ∧
    (∀ k ∈ before, k.captures? l.code = none) ∧ m.captures? l.code = some args

theorem Line.usesFirst_iff {l : Line} {m : Macro} {args : List String} :
    l.UsesFirst macros m args ↔ Macro.use? macros l.code = some (m, args) := by
  rw [Macro.use?_eq, List.findSome?_eq_some_iff]
  constructor
  · rintro ⟨before, after, rfl, hbefore, hm⟩
    refine ⟨before, m, after, rfl, by rw [hm, Option.map_some], fun k hk => ?_⟩
    rw [hbefore k hk, Option.map_none]
  · rintro ⟨before, n, after, rfl, hn, hbefore⟩
    obtain ⟨ws, hws, heq⟩ := Option.map_eq_some_iff.1 hn
    obtain ⟨rfl, rfl⟩ := Prod.mk.inj heq
    exact ⟨before, after, rfl, fun k hk => Option.map_eq_none_iff.1 (hbefore k hk), hws⟩

theorem Line.UsesFirst.mem {l : Line} {m : Macro} {args : List String}
    (h : l.UsesFirst macros m args) : m ∈ macros := by
  obtain ⟨before, after, rfl, -, -⟩ := h
  simp

theorem Line.UsesFirst.uses {l : Line} {m : Macro} {args : List String}
    (h : l.UsesFirst macros m args) : l.Uses macros := by
  refine ⟨m, h.mem, ?_⟩
  obtain ⟨-, -, -, -, hm⟩ := h
  rw [hm]
  rfl

/-- A line uses first one macro only, with certain operands. -/
theorem Line.UsesFirst.unique {l : Line} {m n : Macro} {args args' : List String}
    (h : l.UsesFirst macros m args) (h' : l.UsesFirst macros n args') : m = n ∧ args = args' := by
  have huse := Line.usesFirst_iff.1 h
  rw [Line.usesFirst_iff.1 h'] at huse
  exact (Prod.mk.inj (Option.some.inj huse)).imp Eq.symm Eq.symm

/-! ## The lines of a macro -/

namespace Expansion

/-- Lines of a macro are filled one by one and then put in place. -/
theorem fillLines_eq (templates args : List String) (uid : Nat) (l : Line) :
    fillLines templates args uid l =
      (templates.mapM fun s => Placeholder.fill s args uid).map (List.map l.withCode) := by
  unfold fillLines
  induction templates with
  | nil => rfl
  | cons s templates ih =>
    rw [List.mapM_cons, List.mapM_cons, ih]
    cases Placeholder.fill s args uid with
    | error e => rfl
    | ok code =>
      cases templates.mapM fun s => Placeholder.fill s args uid with
      | error e => rfl
      | ok codes => rfl

/-- A use of a macro without blocks that can be filled leaves the lines of the macro. -/
theorem expandUse_of_fill {l : Line} {m : Macro} {args codes : List String} {uid : Nat}
    (hm : m.wraps = false)
    (hcodes : m.top.mapM (fun s => Placeholder.fill s args uid) = .ok codes) (rest : List Line) :
    expandUse ⟨l, m, args, rest⟩ uid = (codes.map l.withCode ++ rest, []) := by
  simp [expandUse, fillLines_eq, hcodes, hm, Except.map]

/-- A use that cannot be filled is dropped with a message. -/
theorem expandUse_of_fill_error {l : Line} {m : Macro} {args : List String} {uid : Nat}
    {e : PlaceholderError}
    (he : m.top.mapM (fun s => Placeholder.fill s args uid) = .error e) (rest : List Line) :
    expandUse ⟨l, m, args, rest⟩ uid = (rest, [placeholderMessage e l]) := by
  simp [expandUse, fillLines_eq, he, Except.map]

end Expansion

/-! ## Unfolding line by line -/

/-- What some lines unfold to: the lines in their place, what is reported, and the numbers of the
    expansions in the order in which they are made. -/
structure Unfolding where
  lines : List Line
  messages : List Message
  numbers : List Nat

namespace Unfolding

/-- One unfolding behind another. -/
def append (u v : Unfolding) : Unfolding :=
  ⟨u.lines ++ v.lines, u.messages ++ v.messages, u.numbers ++ v.numbers⟩

instance : Append Unfolding := ⟨append⟩

@[simp] theorem lines_append (u v : Unfolding) : (u ++ v).lines = u.lines ++ v.lines := rfl

@[simp] theorem messages_append (u v : Unfolding) : (u ++ v).messages = u.messages ++ v.messages :=
  rfl

@[simp] theorem numbers_append (u v : Unfolding) : (u ++ v).numbers = u.numbers ++ v.numbers := rfl

theorem append_assoc (u v w : Unfolding) : u ++ v ++ w = u ++ (v ++ w) := by
  show append (append u v) w = append u (append v w)
  simp [append]

theorem append_nil (u : Unfolding) : u ++ ⟨[], [], []⟩ = u := by
  show append u ⟨[], [], []⟩ = u
  simp [append]

/-- A line that stays. -/
def kept (l : Line) : Unfolding := ⟨[l], [], []⟩

/-- A use that cannot be filled. -/
def dropped (e : PlaceholderError) (l : Line) (number : Nat) : Unfolding :=
  ⟨[], [Expansion.placeholderMessage e l], [number]⟩

/-- An expansion, apart from what becomes of its lines. -/
def expanded (number : Nat) : Unfolding := ⟨[], [], [number]⟩

@[simp] theorem numbers_kept (l : Line) : (kept l).numbers = [] := rfl

@[simp] theorem numbers_dropped (e : PlaceholderError) (l : Line) (number : Nat) :
    (dropped e l number).numbers = [number] := rfl

@[simp] theorem numbers_expanded (number : Nat) : (expanded number).numbers = [number] := rfl

theorem length_numbers_dropped (e : PlaceholderError) (l : Line) (number : Nat) (u : Unfolding) :
    (dropped e l number ++ u).numbers.length = u.numbers.length + 1 := rfl

theorem length_numbers_expanded (number : Nat) (t u : Unfolding) :
    (expanded number ++ (t ++ u)).numbers.length = t.numbers.length + u.numbers.length + 1 := by
  rw [numbers_append, numbers_append, numbers_expanded, List.length_append, List.length_append,
    List.length_singleton, Nat.add_comm]

end Unfolding

open Unfolding (kept dropped expanded)

/-- What some lines unfold to when some number of expansions was made before. A line that uses no
    macro stays as it is. Else the first macro that it uses is expanded under the next number: the
    lines of the macro, filled, stand where the line stood, with its raw text and without comment, and
    are unfolded before the lines behind it. Where they cannot be filled the line is dropped. -/
inductive Unfolds (macros : List Macro) : Nat → List Line → Unfolding → Prop
  | nil (n : Nat) : Unfolds macros n [] ⟨[], [], []⟩
  | keep {n : Nat} {l : Line} {rest : List Line} {u : Unfolding} (hl : ¬ l.Uses macros)
      (hrest : Unfolds macros n rest u) : Unfolds macros n (l :: rest) (kept l ++ u)
  | drop {n : Nat} {l : Line} {rest : List Line} {m : Macro} {args : List String}
      {e : PlaceholderError} {u : Unfolding} (hl : l.UsesFirst macros m args)
      (he : m.top.mapM (fun s => Placeholder.fill s args (n + 1)) = .error e)
      (hrest : Unfolds macros (n + 1) rest u) :
      Unfolds macros n (l :: rest) (dropped e l (n + 1) ++ u)
  | expand {n : Nat} {l : Line} {rest : List Line} {m : Macro} {args codes : List String}
      {t u : Unfolding} (hl : l.UsesFirst macros m args)
      (hcodes : m.top.mapM (fun s => Placeholder.fill s args (n + 1)) = .ok codes)
      (htop : Unfolds macros (n + 1)
        (codes.map fun code => ⟨l.file, l.index, l.raw, code, none⟩) t)
      (hrest : Unfolds macros (n + 1 + t.numbers.length) rest u) :
      Unfolds macros n (l :: rest) (expanded (n + 1) ++ (t ++ u))

namespace Unfolds

variable {n : Nat} {lines : List Line} {u : Unfolding}

/-- The expansions are numbered one after another. -/
theorem numbers_eq (h : Unfolds macros n lines u) :
    u.numbers = List.range' (n + 1) u.numbers.length := by
  induction h with
  | nil n => rfl
  | keep hl hrest ih => simpa using ih
  | @drop n l rest m args e u hl he hrest ih =>
    simp only [Unfolding.numbers_append, Unfolding.numbers_dropped, List.singleton_append,
      List.length_cons, List.range'_succ]
    rw [← ih]
  | @expand n l rest m args codes t u hl hcodes htop hrest iht ihu =>
    have hnext : n + 1 + 1 + t.numbers.length = n + 1 + t.numbers.length + 1 := by omega
    simp only [Unfolding.numbers_append, Unfolding.numbers_expanded, List.singleton_append,
      List.length_cons, List.length_append, List.range'_succ, ← List.range'_append_1]
    rw [← iht, hnext, ← ihu]

/-- Lines that use no macro stay in front. -/
theorem keep_append {front : List Line} (hfront : ∀ l ∈ front, ¬ l.Uses macros)
    (h : Unfolds macros n lines u) : Unfolds macros n (front ++ lines) (⟨front, [], []⟩ ++ u) := by
  induction front with
  | nil => exact h
  | cons l front ih =>
    have hrest := ih fun k hk => hfront k (List.mem_cons_of_mem l hk)
    exact .keep (hfront l List.mem_cons_self) hrest

/-- Lines that use no macro unfold to themselves. -/
theorem of_not_uses (hlines : ∀ l ∈ lines, ¬ l.Uses macros) (n : Nat) :
    Unfolds macros n lines ⟨lines, [], []⟩ := by
  have h := keep_append hlines (.nil n)
  rw [List.append_nil, Unfolding.append_nil] at h
  exact h

/-- An unfolding of some lines and others is one of the former and then one of the latter. -/
theorem exists_append {before after : List Line} (h : Unfolds macros n (before ++ after) u) :
    ∃ s t, Unfolds macros n before s ∧ Unfolds macros (n + s.numbers.length) after t ∧
      u = s ++ t := by
  induction before generalizing n u with
  | nil => exact ⟨⟨[], [], []⟩, u, .nil n, h, rfl⟩
  | cons l before ih =>
    cases h with
    | keep hl hrest =>
      obtain ⟨s, t, hs, ht, rfl⟩ := ih hrest
      refine ⟨kept l ++ s, t, .keep hl hs, ?_, (Unfolding.append_assoc _ _ _).symm⟩
      simpa using ht
    | @drop _ _ _ _ _ e _ hl he hrest =>
      obtain ⟨s, t, hs, ht, rfl⟩ := ih hrest
      refine ⟨dropped e l (n + 1) ++ s, t, .drop hl he hs, ?_, (Unfolding.append_assoc _ _ _).symm⟩
      have hcount : n + (dropped e l (n + 1) ++ s).numbers.length = n + 1 + s.numbers.length := by
        rw [Unfolding.length_numbers_dropped]
        omega
      rw [hcount]
      exact ht
    | @expand _ _ _ _ _ _ v _ hl hcodes htop hrest =>
      obtain ⟨s, t, hs, ht, rfl⟩ := ih hrest
      refine ⟨expanded (n + 1) ++ (v ++ s), t, .expand hl hcodes htop hs, ?_, ?_⟩
      · have hcount : n + (expanded (n + 1) ++ (v ++ s)).numbers.length =
            n + 1 + v.numbers.length + s.numbers.length := by
          rw [Unfolding.length_numbers_expanded]
          omega
        rw [hcount]
        exact ht
      · simp only [Unfolding.append_assoc]

/-- **Lines unfold in one way only.** -/
theorem unique {v : Unfolding} (hu : Unfolds macros n lines u) (hv : Unfolds macros n lines v) :
    u = v := by
  induction hu generalizing v with
  | nil n =>
    cases hv
    rfl
  | keep hl hrest ih =>
    cases hv with
    | keep _ hrest' => rw [ih hrest']
    | drop hl' => exact absurd hl'.uses hl
    | expand hl' => exact absurd hl'.uses hl
  | drop hl he hrest ih =>
    cases hv with
    | keep hl' => exact absurd hl.uses hl'
    | drop hl' he' hrest' =>
      obtain ⟨rfl, rfl⟩ := hl.unique hl'
      obtain rfl := Except.error.inj (he.symm.trans he')
      rw [ih hrest']
    | expand hl' hcodes' =>
      obtain ⟨rfl, rfl⟩ := hl.unique hl'
      simp [he] at hcodes'
  | expand hl hcodes htop hrest iht ihu =>
    cases hv with
    | keep hl' => exact absurd hl.uses hl'
    | drop hl' he' =>
      obtain ⟨rfl, rfl⟩ := hl.unique hl'
      simp [hcodes] at he'
    | expand hl' hcodes' htop' hrest' =>
      obtain ⟨rfl, rfl⟩ := hl.unique hl'
      obtain rfl := Except.ok.inj (hcodes.symm.trans hcodes')
      obtain rfl := iht htop'
      rw [ihu hrest']

/-! ## Unfolding and runs -/

open Expansion

/-- A run that begins with lines that unfold leaves what they unfold to, and goes on behind them with
    as many expansions less. -/
theorem expandFrom_append (hplain : ∀ m ∈ macros, m.wraps = false)
    (h : Unfolds macros n lines u) (left : Nat) (tail : List Line) :
    expandFrom macros (u.numbers.length + left) (n + 1) (lines ++ tail) =
      (u.lines ++ (expandFrom macros left (n + u.numbers.length + 1) tail).1,
        u.messages ++ (expandFrom macros left (n + u.numbers.length + 1) tail).2) := by
  induction h generalizing left tail with
  | nil n => simp
  | @keep n l rest u hl hrest ih =>
    rw [List.cons_append, expandFrom_cons_of_not_uses hl]
    have hcount : (kept l ++ u).numbers.length = u.numbers.length := by simp
    rw [hcount, ih]
    rfl
  | @drop n l rest m args e u hl he hrest ih =>
    have hcount : (dropped e l (n + 1) ++ u).numbers.length = u.numbers.length + 1 :=
      Unfolding.length_numbers_dropped e l (n + 1) u
    have hleft : u.numbers.length + 1 + left = u.numbers.length + left + 1 := by omega
    have hnumber : n + (u.numbers.length + 1) + 1 = n + 1 + u.numbers.length + 1 := by omega
    rw [List.cons_append, hcount, hleft, hnumber, expandFrom_cons_of_use (Line.usesFirst_iff.1 hl),
      expandUse_of_fill_error he]
    dsimp only
    rw [ih]
    rfl
  | @expand n l rest m args codes t u hl hcodes htop hrest iht ihu =>
    have hcount : (expanded (n + 1) ++ (t ++ u)).numbers.length =
        t.numbers.length + u.numbers.length + 1 := Unfolding.length_numbers_expanded (n + 1) t u
    have hleft : t.numbers.length + u.numbers.length + 1 + left =
        t.numbers.length + (u.numbers.length + left) + 1 := by omega
    have hnumber : n + (t.numbers.length + u.numbers.length + 1) + 1 =
        n + 1 + t.numbers.length + u.numbers.length + 1 := by omega
    have hlines : codes.map l.withCode =
        codes.map fun code => ⟨l.file, l.index, l.raw, code, none⟩ := rfl
    rw [List.cons_append, hcount, hleft, hnumber,
      expandFrom_cons_of_use (Line.usesFirst_iff.1 hl), expandUse_of_fill (hplain m hl.mem) hcodes,
      hlines]
    dsimp only
    -- the lines of the macro are a part of the run, and so are the lines behind the use
    rw [iht, ihu]
    simp [expanded]

/-- A run that does not reach its limit follows an unfolding. -/
theorem exists_unfolds_or_limit (hplain : ∀ m ∈ macros, m.wraps = false) (left n : Nat)
    (lines : List Line) :
    (∃ u, Unfolds macros n lines u ∧ u.numbers.length ≤ left) ∨
      ∃ before m l, (expandFrom macros left (n + 1) lines).2 = before ++ [limitMessage m l] := by
  induction left generalizing n lines with
  | zero =>
    rcases not_uses_or_firstUse macros lines with hnone | ⟨front, u, rfl, hfront, hu⟩
    · exact .inl ⟨_, of_not_uses hnone n, Nat.le_refl 0⟩
    · right
      rw [expandFrom_append_of_not_uses hfront, expandFrom_zero_of_use hu]
      exact ⟨[], u.mac, u.line, rfl⟩
  | succ left ih =>
    rcases not_uses_or_firstUse macros lines with hnone | ⟨front, ⟨l, m, args, rest⟩, rfl, hfront, hu⟩
    · exact .inl ⟨_, of_not_uses hnone n, Nat.zero_le _⟩
    · have hl : l.UsesFirst macros m args := Line.usesFirst_iff.2 hu
      rw [expandFrom_append_of_not_uses hfront, expandFrom_cons_of_use hu]
      cases hfill : m.top.mapM (fun s => Placeholder.fill s args (n + 1)) with
      | error e =>
        rw [expandUse_of_fill_error hfill]
        rcases ih (n + 1) rest with ⟨u, hrest, hcount⟩ | ⟨before, m', l', hlimit⟩
        · left
          refine ⟨_, keep_append hfront (.drop hl hfill hrest), ?_⟩
          exact Nat.succ_le_succ hcount
        · right
          exact ⟨placeholderMessage e l :: before, m', l', by simp [hlimit]⟩
      | ok codes =>
        rw [expandUse_of_fill (hplain m hl.mem) hfill]
        rcases ih (n + 1) (codes.map l.withCode ++ rest) with ⟨u, hall, hcount⟩ | ⟨before, m', l', hlimit⟩
        · left
          obtain ⟨t, u, htop, hrest, rfl⟩ := hall.exists_append
          refine ⟨_, keep_append hfront (.expand hl hfill htop hrest), ?_⟩
          exact Nat.succ_le_succ hcount
        · right
          exact ⟨before, m', l', by simp [hlimit]⟩

end Unfolds

/-- **Macros without blocks are expanded depth first.** If the code unfolds with at most 10000
    expansions, its expansion is what it unfolds to, with the same messages, and the expansions have
    the numbers from one on. If it unfolds with more expansions only, or in no way, the last message
    is that there are too many. -/
theorem MacroTable.expand_eq_unfolding (table : MacroTable) (lines : List Line)
    (hplain : ∀ m ∈ table.values, m.wraps = false) :
    (∀ u, Unfolds table.values 0 lines u → u.numbers.length ≤ 10000 →
        table.expand lines = (u.lines, .ofList u.messages) ∧
          u.numbers = List.range' 1 u.numbers.length) ∧
      ((∃ u, Unfolds table.values 0 lines u ∧ 10000 < u.numbers.length) ∨
          (¬ ∃ u, Unfolds table.values 0 lines u) →
        ∃ before m l, (table.expand lines).2.toList = before ++ [Expansion.limitMessage m l]) := by
  constructor
  · intro u hu hcount
    have hnil (left uid : Nat) : Expansion.expandFrom table.values left uid [] = ([], []) :=
      Expansion.expandFrom_of_not_uses (by simp) left uid
    have hrun := hu.expandFrom_append hplain (10000 - u.numbers.length) []
    rw [Nat.add_sub_cancel' hcount, hnil] at hrun
    simp only [List.append_nil] at hrun
    refine ⟨?_, hu.numbers_eq⟩
    simp only [MacroTable.expand, Expansion.limit]
    rw [hrun]
  · intro hmore
    rcases Unfolds.exists_unfolds_or_limit hplain 10000 0 lines with ⟨u, hu, hcount⟩ | hlimit
    · exfalso
      rcases hmore with ⟨v, hv, hmany⟩ | hnone
      · obtain rfl := hu.unique hv
        omega
      · exact hnone ⟨u, hu⟩
    · simpa only [MacroTable.expand, Expansion.limit, Report.toList_ofList] using hlimit

/-! ### An example -/

namespace Unfolding

/-- A macro `twice %register` that uses another one two times. -/
def twice : Macro :=
  ⟨"twice ".toList.map Piece.ofChar ++ [.operand .register], none, ["once %1", "once %1"], [], false,
    none⟩

/-- A macro `once %register` with the number of its expansion. -/
def once : Macro :=
  ⟨"once ".toList.map Piece.ofChar ++ [.operand .register], none, ["mov %1, %uid"], [], false, none⟩

/-- A macro `never` that asks for an operand which no use of it has. -/
def never : Macro :=
  ⟨"never".toList.map Piece.ofChar, none, ["inc %1"], [], false, none⟩

/-- The three macros in a table. -/
def twiceTable : MacroTable :=
  ((Registry.empty.insert "twice %register" twice).insert "once %register" once).insert "never" never

/-- A line of code of which only the code matters. -/
def codeOnly (code : String) : Line := ⟨"main", 0, "", code, none⟩

/-- A use of a macro that uses another one, and a use that is dropped. -/
def twiceCode : List Line := [codeOnly "twice &r1", codeOnly "never"]

/-- The uses in a macro are expanded before the lines behind it. -/
theorem expand_twiceCode :
    (∀ m ∈ twiceTable.values, m.wraps = false) ∧
      twiceTable.expand twiceCode =
        ([codeOnly "mov &r1, 2", codeOnly "mov &r1, 3"],
          .ofList [Expansion.placeholderMessage ⟨['1'], 0⟩ (codeOnly "never")]) := by
  have hplain : ∀ m ∈ twiceTable.values, m.wraps = false := by decide +kernel
  have hnever : (codeOnly "never").UsesFirst twiceTable.values never [] :=
    Line.usesFirst_iff.2 (by decide +kernel)
  have honce : (codeOnly "once &r1").UsesFirst twiceTable.values once ["&r1"] :=
    Line.usesFirst_iff.2 (by decide +kernel)
  have htwice : (codeOnly "twice &r1").UsesFirst twiceTable.values twice ["&r1"] :=
    Line.usesFirst_iff.2 (by decide +kernel)
  -- from the inside out: the lines of the two inner uses stay, and behind them a use is dropped
  have hthree : Unfolds twiceTable.values 3 [codeOnly "mov &r1, 3"] _ :=
    .keep (by decide +kernel) (.nil 3)
  have htwo : Unfolds twiceTable.values 2 [codeOnly "mov &r1, 2"] _ :=
    .keep (by decide +kernel) (.nil 2)
  have hsecond := Unfolds.expand honce (by rfl) hthree (.nil 3)
  have hfirst := Unfolds.expand honce (by rfl) htwo hsecond
  have hcode := Unfolds.expand htwice (by rfl) hfirst (.drop hnever (by rfl) (.nil 4))
  exact ⟨hplain, ((MacroTable.expand_eq_unfolding twiceTable twiceCode hplain).1 _ hcode
    (by decide)).1⟩

end Unfolding

end MacroAsm
