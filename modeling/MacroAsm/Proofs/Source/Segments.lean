import MacroAsm.Program.CodeLines
import MacroAsm.Proofs.Lists

set_option autoImplicit false

/-! # Segments of a file

A file without errors is a sequence of segments: lines of code, directives, definitions of macros and
declarations of a memory layout. Where a segment begins and ends is told by its own lines, so a file
is cut into segments in one way only (`Segment.eq_of_flatMap_lines`). -/

namespace MacroAsm

/-! ## Lines -/

namespace Line

/-- Whether a line asks for a memory layout of some kind. -/
def asksLayout (l : Line) : Bool :=
  l.directive?.any fun d => d.name == Layout.directiveName && (LayoutKind.parse d.rest).isOk

/-- Whether a line asks for a memory layout that is followed by declarations. -/
def opensBlock (l : Line) : Bool :=
  l.directive?.any fun d => d.name == Layout.directiveName && CodeLines.opensBlock d.rest

/-- Whether the text behind a line is inside a macro, given whether the line is. -/
def opensMacro (inside : Bool) (l : Line) : Bool :=
  if l.isDirective "macro" then true else if l.isDirective "endmacro" then false else inside

variable {l : Line} {d : Directive}

theorem isDirective_of_some (h : l.directive? = some d) (name : String) :
    l.isDirective name = (d.name == name) := by
  simp only [isDirective, h, Option.any_some]

theorem isDirective_of_none (h : l.directive? = none) (name : String) :
    l.isDirective name = false := by
  simp only [isDirective, h, Option.any_none]

theorem exists_of_isDirective {name : String} (h : l.isDirective name = true) :
    ∃ rest, l.directive? = some ⟨name, rest⟩ := by
  cases hd : l.directive? with
  | none => simp [isDirective, hd] at h
  | some d =>
    obtain ⟨other, rest⟩ := d
    obtain rfl : other = name := by simpa [isDirective, hd] using h
    exact ⟨rest, rfl⟩

theorem exists_of_opensBlock (h : l.opensBlock = true) :
    ∃ rest kind, l.directive? = some ⟨Layout.directiveName, rest⟩ ∧
      LayoutKind.parse rest = .ok kind ∧ kind.hasBlock = true := by
  cases hd : l.directive? with
  | none => simp [opensBlock, hd] at h
  | some d =>
    obtain ⟨name, rest⟩ := d
    simp only [opensBlock, hd, Option.any_some, Bool.and_eq_true, beq_iff_eq] at h
    obtain ⟨rfl, hopens⟩ := h
    unfold CodeLines.opensBlock at hopens
    split at hopens
    · next kind hkind => exact ⟨rest, kind, rfl, hkind, hopens⟩
    · simp at hopens

end Line

/-- The lines of a list that are not inside a macro, given whether its beginning is. -/
def outsideMacros (inside : Bool) : List Line → List Line
  | [] => []
  | l :: lines =>
    if inside then outsideMacros (l.opensMacro inside) lines
    else l :: outsideMacros (l.opensMacro inside) lines

/-! ## Segments -/

/-- A part of a file. -/
inductive Segment where
  | code (l : Line)
  | directive (l : Line)
  | definition (start : Line) (body : List Line) (stop : Line)
  | declarations (start : Line) (body : List Line) (stop : Line)

namespace Segment

/-- The lines of a segment. -/
def lines : Segment → List Line
  | code l => [l]
  | directive l => [l]
  | definition start body stop => start :: (body ++ [stop])
  | declarations start body stop => start :: (body ++ [stop])

/-- What the lines of a segment must be. A definition goes up to the first line that ends a macro,
    and there are no directives among declarations. -/
def Valid : Segment → Prop
  | code l => l.directive? = none
  | directive l => l.directive?.isSome = true ∧ l.isDirective "macro" = false ∧
      l.isDirective "endmacro" = false ∧ l.opensBlock = false
  | definition start body stop => start.isDirective "macro" = true ∧
      (∀ l ∈ body, l.isDirective "macro" = false ∧ l.isDirective "endmacro" = false) ∧
      stop.isDirective "endmacro" = true
  | declarations start body stop => start.opensBlock = true ∧
      (∀ l ∈ body, l.directive? = none) ∧ stop.isDirective Layout.endName = true

instance (g : Segment) : Decidable g.Valid :=
  match g with
  | code l => inferInstanceAs (Decidable (l.directive? = none))
  | directive l => inferInstanceAs (Decidable (l.directive?.isSome = true ∧
      l.isDirective "macro" = false ∧ l.isDirective "endmacro" = false ∧ l.opensBlock = false))
  | definition start body stop => inferInstanceAs (Decidable (start.isDirective "macro" = true ∧
      (∀ l ∈ body, l.isDirective "macro" = false ∧ l.isDirective "endmacro" = false) ∧
      stop.isDirective "endmacro" = true))
  | declarations start body stop => inferInstanceAs (Decidable (start.opensBlock = true ∧
      (∀ l ∈ body, l.directive? = none) ∧ stop.isDirective Layout.endName = true))

/-- The line of a segment that is code. -/
def code? : Segment → Option Line
  | code l => some l
  | _ => none

/-- The first line and the declarations of a segment that is a memory layout. -/
def declarations? : Segment → Option (Line × List Line)
  | declarations start body _ => some (start, body)
  | _ => none

/-- The declarations of a segment. -/
def declared : Segment → List Line
  | declarations _ body _ => body
  | _ => []

/-- The lines of a segment that are no directives: its code, or those of its body. -/
def plainLines : Segment → List Line
  | code l => [l]
  | directive _ => []
  | definition _ body _ => body.filter fun l => l.directive?.isNone
  | declarations _ body _ => body

/-- Whether a segment asks for a memory layout of some kind. -/
def asksLayout : Segment → Bool
  | directive l => l.asksLayout
  | declarations start _ _ => start.asksLayout
  | _ => false

/-! ## One way to cut -/

/-- A list is cut in one way at its first element of some kind. -/
theorem eq_of_append_cons_eq {α : Type} {p : α → Bool} {as bs as' bs' : List α} {x x' : α}
    (has : ∀ a ∈ as, p a = false) (has' : ∀ a ∈ as', p a = false) (hx : p x = true)
    (hx' : p x' = true) (h : as ++ x :: bs = as' ++ x' :: bs') : as = as' ∧ x = x' ∧ bs = bs' := by
  induction as generalizing as' with
  | nil =>
    cases as' with
    | nil => exact ⟨rfl, List.cons.inj h⟩
    | cons a as' =>
      obtain ⟨rfl, -⟩ := List.cons.inj h
      exact absurd ((has' x List.mem_cons_self).symm.trans hx) (by decide)
  | cons a as ih =>
    cases as' with
    | nil =>
      obtain ⟨rfl, -⟩ := List.cons.inj h
      exact absurd ((has a List.mem_cons_self).symm.trans hx') (by decide)
    | cons b as' =>
      obtain ⟨rfl, htail⟩ := List.cons.inj h
      obtain ⟨rfl, heq⟩ := ih (fun c hc => has c (List.mem_cons_of_mem a hc))
        (fun c hc => has' c (List.mem_cons_of_mem a hc)) htail
      exact ⟨rfl, heq⟩

/-- The kinds of segments. -/
inductive Kind where
  | code
  | directive
  | definition
  | declarations
  deriving DecidableEq

/-- The kind of a segment. -/
def kind : Segment → Kind
  | code _ => .code
  | directive _ => .directive
  | definition .. => .definition
  | declarations .. => .declarations

/-- The kind of the segment that a line begins. -/
def Kind.ofLine (l : Line) : Kind :=
  if l.directive? = none then .code
  else if l.isDirective "macro" then .definition
  else if l.opensBlock then .declarations
  else .directive

/-- The first line of a segment. -/
def first : Segment → Line
  | code l => l
  | directive l => l
  | definition start _ _ => start
  | declarations start _ _ => start

theorem exists_lines_eq (s : Segment) : ∃ ls, s.lines = s.first :: ls := by
  cases s with
  | code l | directive l => exact ⟨[], rfl⟩
  | definition start body stop | declarations start body stop => exact ⟨_, rfl⟩

/-- The first line of a segment tells its kind. -/
theorem Valid.kind_eq {s : Segment} (h : s.Valid) : Kind.ofLine s.first = s.kind := by
  unfold Kind.ofLine
  cases s with
  | code l => exact if_pos h
  | directive l =>
    obtain ⟨hsome, hbegin, -, hblock⟩ := h
    simp [first, kind, Option.isSome_iff_ne_none.1 hsome, hbegin, hblock]
  | definition start body stop =>
    obtain ⟨rest, hd⟩ := Line.exists_of_isDirective h.1
    simp [first, kind, hd, h.1]
  | declarations start body stop =>
    obtain ⟨rest, layout, hd, -, -⟩ := Line.exists_of_opensBlock h.1
    have hbegin : start.isDirective "macro" = false := Line.isDirective_of_some hd "macro"
    simp [first, kind, hd, hbegin, h.1]

/-- A valid segment at the beginning of a list is determined by the list. -/
theorem Valid.eq_of_append {s s' : Segment} (h : s.Valid) (h' : s'.Valid) {ls ls' : List Line}
    (heq : s.lines ++ ls = s'.lines ++ ls') : s = s' ∧ ls = ls' := by
  have hkind : s.kind = s'.kind := by
    obtain ⟨rest, hrest⟩ := s.exists_lines_eq
    obtain ⟨rest', hrest'⟩ := s'.exists_lines_eq
    rw [hrest, hrest'] at heq
    rw [← h.kind_eq, ← h'.kind_eq, (List.cons.inj heq).1]
  cases s with
  | code l =>
    cases s' with
    | code l' =>
      obtain ⟨rfl, rfl⟩ := List.cons.inj heq
      exact ⟨rfl, rfl⟩
    | _ => exact absurd hkind (by simp [kind])
  | directive l =>
    cases s' with
    | directive l' =>
      obtain ⟨rfl, rfl⟩ := List.cons.inj heq
      exact ⟨rfl, rfl⟩
    | _ => exact absurd hkind (by simp [kind])
  | definition start body stop =>
    cases s' with
    | definition start' body' stop' =>
      simp only [lines, List.cons_append, List.append_assoc, List.nil_append] at heq
      obtain ⟨rfl, hrest⟩ := List.cons.inj heq
      obtain ⟨rfl, rfl, rfl⟩ := eq_of_append_cons_eq (fun l hl => (h.2.1 l hl).2)
        (fun l hl => (h'.2.1 l hl).2) h.2.2 h'.2.2 hrest
      exact ⟨rfl, rfl⟩
    | _ => exact absurd hkind (by simp [kind])
  | declarations start body stop =>
    cases s' with
    | declarations start' body' stop' =>
      simp only [lines, List.cons_append, List.append_assoc, List.nil_append] at heq
      obtain ⟨rfl, hrest⟩ := List.cons.inj heq
      obtain ⟨rfl, rfl, rfl⟩ := eq_of_append_cons_eq
        (fun l hl => Line.isDirective_of_none (h.2.1 l hl) _)
        (fun l hl => Line.isDirective_of_none (h'.2.1 l hl) _) h.2.2 h'.2.2 hrest
      exact ⟨rfl, rfl⟩
    | _ => exact absurd hkind (by simp [kind])

/-- A list of lines is cut into valid segments in one way at most. -/
theorem eq_of_flatMap_lines {ss ss' : List Segment} (h : ∀ s ∈ ss, s.Valid)
    (h' : ∀ s ∈ ss', s.Valid) (heq : ss.flatMap lines = ss'.flatMap lines) : ss = ss' := by
  induction ss generalizing ss' with
  | nil =>
    cases ss' with
    | nil => rfl
    | cons s' ss' =>
      obtain ⟨rest, hrest⟩ := s'.exists_lines_eq
      simp [hrest] at heq
  | cons s ss ih =>
    cases ss' with
    | nil =>
      obtain ⟨rest, hrest⟩ := s.exists_lines_eq
      simp [hrest] at heq
    | cons s' ss' =>
      rw [List.flatMap_cons, List.flatMap_cons] at heq
      obtain ⟨rfl, htail⟩ := (h s List.mem_cons_self).eq_of_append (h' s' List.mem_cons_self) heq
      rw [ih (fun t ht => h t (List.mem_cons_of_mem s ht))
        (fun t ht => h' t (List.mem_cons_of_mem s ht)) htail]

end Segment

/-- The lines of a valid segment that are no directives. -/
theorem Segment.Valid.filter_lines {g : Segment} (hg : g.Valid) :
    g.lines.filter (fun l => l.directive?.isNone) = g.plainLines := by
  cases g with
  | code l =>
    have hl : l.directive? = none := hg
    simp [lines, plainLines, hl]
  | directive l =>
    obtain ⟨d, hd⟩ := Option.isSome_iff_exists.1 hg.1
    simp [lines, plainLines, hd]
  | definition start body stop =>
    obtain ⟨hstart, -, hstop⟩ := hg
    obtain ⟨opener, hd⟩ := Line.exists_of_isDirective hstart
    obtain ⟨closer, hd'⟩ := Line.exists_of_isDirective hstop
    simp [lines, plainLines, hd, hd']
  | declarations start body stop =>
    obtain ⟨hstart, hbody, hstop⟩ := hg
    obtain ⟨rest, kind, hd, -, -⟩ := Line.exists_of_opensBlock hstart
    obtain ⟨words, hd'⟩ := Line.exists_of_isDirective hstop
    have hkept : body.filter (fun l => l.directive?.isNone) = body :=
      List.filter_eq_self.2 fun l hl => by simp [hbody l hl]
    simp [lines, plainLines, hd, hd', hkept]

/-! ## Lines outside of macros -/

theorem outsideMacros_of_forall {ls : List Line} (h : ∀ l ∈ ls, l.isDirective "macro" = false ∧
      l.isDirective "endmacro" = false) (inside : Bool) (rest : List Line) :
    outsideMacros inside (ls ++ rest) =
      (if inside then [] else ls) ++ outsideMacros inside rest := by
  induction ls with
  | nil => simp
  | cons l ls ih =>
    obtain ⟨hbegin, hend⟩ := h l List.mem_cons_self
    have hinside : l.opensMacro inside = inside := by simp [Line.opensMacro, hbegin, hend]
    rw [List.cons_append, outsideMacros, hinside, ih fun k hk => h k (List.mem_cons_of_mem l hk)]
    cases inside with
    | true => rfl
    | false => rfl

theorem Line.asksLayout_of_opensBlock {l : Line} (h : l.opensBlock = true) :
    l.asksLayout = true := by
  obtain ⟨rest, kind, hd, hkind, -⟩ := exists_of_opensBlock h
  simp [asksLayout, hd, hkind, Except.isOk, Except.toBool]

theorem Line.asksLayout_of_none {l : Line} (h : l.directive? = none) : l.asksLayout = false := by
  simp [asksLayout, h]

/-- Each segment that asks for a layout has one line outside of macros that does. -/
theorem Segment.Valid.countP_outsideMacros {g : Segment} (hg : g.Valid) (rest : List Line) :
    (outsideMacros false (g.lines ++ rest)).countP Line.asksLayout =
      g.asksLayout.toNat + (outsideMacros false rest).countP Line.asksLayout := by
  cases g with
  | code l =>
    have hl : l.directive? = none := hg
    have hother : ∀ k ∈ [l], k.isDirective "macro" = false ∧ k.isDirective "endmacro" = false := by
      simp [Line.isDirective_of_none hl]
    rw [lines, outsideMacros_of_forall hother, List.countP_append]
    simp [asksLayout, Line.asksLayout_of_none hl]
  | directive l =>
    obtain ⟨-, hbegin, hend, -⟩ := hg
    have hother : ∀ k ∈ [l], k.isDirective "macro" = false ∧ k.isDirective "endmacro" = false := by
      simp [hbegin, hend]
    rw [lines, outsideMacros_of_forall hother, List.countP_append]
    cases hasks : l.asksLayout with
    | true => simp [asksLayout, hasks]
    | false => simp [asksLayout, hasks]
  | definition start body stop =>
    obtain ⟨hstart, hbody, hstop⟩ := hg
    obtain ⟨opener, hd⟩ := Line.exists_of_isDirective hstart
    obtain ⟨closer, hd'⟩ := Line.exists_of_isDirective hstop
    have hopen : start.opensMacro false = true := by simp [Line.opensMacro, hstart]
    have hclose : stop.opensMacro true = false := by
      simp [Line.opensMacro, hstop, Line.isDirective_of_some hd']
    have hnot : start.asksLayout = false := by simp [Line.asksLayout, hd, Layout.directiveName]
    rw [lines, List.cons_append, List.append_assoc, outsideMacros, hopen,
      outsideMacros_of_forall hbody, List.singleton_append]
    simp [outsideMacros, hclose, hnot, asksLayout]
  | declarations start body stop =>
    obtain ⟨hstart, hbody, hstop⟩ := hg
    obtain ⟨rest', kind, hd, hkind, hblock⟩ := Line.exists_of_opensBlock hstart
    obtain ⟨words, hd'⟩ := Line.exists_of_isDirective hstop
    have hstartNot : start.isDirective "macro" = false ∧ start.isDirective "endmacro" = false := by
      simp [Line.isDirective_of_some hd, Layout.directiveName]
    have hstopNot : stop.isDirective "macro" = false ∧ stop.isDirective "endmacro" = false := by
      simp [Line.isDirective_of_some hd', Layout.endName]
    have hother : ∀ k ∈ start :: (body ++ [stop]),
        k.isDirective "macro" = false ∧ k.isDirective "endmacro" = false := by
      intro k hk
      rcases List.mem_cons.1 hk with rfl | hk
      · exact hstartNot
      · rcases List.mem_append.1 hk with hk | hk
        · exact ⟨Line.isDirective_of_none (hbody k hk) _, Line.isDirective_of_none (hbody k hk) _⟩
        · obtain rfl := List.mem_singleton.1 hk
          exact hstopNot
    have hnone : body.countP Line.asksLayout = 0 :=
      List.countP_eq_zero.2 fun k hk => by simp [Line.asksLayout_of_none (hbody k hk)]
    have hnot : stop.asksLayout = false := by
      simp [Line.asksLayout, hd', Layout.endName, Layout.directiveName]
    rw [lines, outsideMacros_of_forall hother, List.countP_append]
    simp [asksLayout, Line.asksLayout_of_opensBlock hstart, hnone, hnot]

/-! ## Code lines -/

namespace CodeLines

variable {s : CodeLines}

/-- Inside a macro only its end counts. -/
theorem step_inside {lines : Array Line} {l : Line}
    (hl : l.isDirective "macro" = false ∧ l.isDirective "endmacro" = false) :
    step ⟨true, false, lines⟩ l = ⟨true, false, lines⟩ := by
  cases hd : l.directive? with
  | none => simp [step, hd]
  | some d =>
    simp only [Line.isDirective_of_some hd, beq_eq_false_iff_ne, ne_eq] at hl
    simp [step, hd, hl.1, hl.2]

/-- Behind a segment the reader is where it was, with the code of the segment. -/
theorem foldl_segment {g : Segment} (hg : g.Valid) (lines : Array Line) :
    g.lines.foldl step ⟨false, false, lines⟩ = ⟨false, false, lines ++ g.code?.toList⟩ := by
  cases g with
  | code l =>
    have hl : l.directive? = none := hg
    simp [Segment.lines, Segment.code?, step, hl]
  | directive l =>
    obtain ⟨hsome, hbegin, hend, hblock⟩ := hg
    obtain ⟨d, hd⟩ := Option.isSome_iff_exists.1 hsome
    simp only [Line.isDirective_of_some hd, beq_eq_false_iff_ne, ne_eq] at hbegin hend
    simp only [Line.opensBlock, hd, Option.any_some, Bool.and_eq_false_iff, beq_eq_false_iff_ne,
      ne_eq] at hblock
    simp only [Segment.lines, Segment.code?, List.foldl_cons, List.foldl_nil, step, hd, if_neg hbegin,
      if_neg hend, Option.toList_none]
    rcases hblock with hname | hnone
    · simp [hname]
    · simp [hnone]
  | definition start body stop =>
    obtain ⟨hstart, hbody, hstop⟩ := hg
    obtain ⟨opener, hd⟩ := Line.exists_of_isDirective hstart
    obtain ⟨closer, hd'⟩ := Line.exists_of_isDirective hstop
    have hopen : step ⟨false, false, lines⟩ start = ⟨true, false, lines⟩ := by simp [step, hd]
    rw [Segment.lines, foldl_block]
    · rw [hopen]
      simp [step, hd', Segment.code?]
    · intro l hl
      rw [hopen]
      exact step_inside (hbody l hl)
  | declarations start body stop =>
    obtain ⟨hstart, hbody, hstop⟩ := hg
    obtain ⟨rest, kind, hd, hkind, hblock⟩ := Line.exists_of_opensBlock hstart
    obtain ⟨rest', hd'⟩ := Line.exists_of_isDirective hstop
    have hopen : step ⟨false, false, lines⟩ start = ⟨false, true, lines⟩ := by
      simp [step, hd, Layout.directiveName, opensBlock, hkind, hblock]
    rw [Segment.lines, foldl_block]
    · rw [hopen]
      simp [step, hd', Segment.code?, Layout.endName, Layout.directiveName]
    · intro l hl
      rw [hopen]
      simp [step, hbody l hl]

/-- The code lines of a file are the code of its segments. -/
theorem ofLines_segments {ss : List Segment} (h : ∀ g ∈ ss, g.Valid) :
    ofLines (ss.flatMap Segment.lines) = ss.filterMap Segment.code? := by
  have hfold : ∀ lines : Array Line, (ss.flatMap Segment.lines).foldl step ⟨false, false, lines⟩ =
      ⟨false, false, lines ++ ss.filterMap Segment.code?⟩ := by
    induction ss with
    | nil => simp
    | cons g ss ih =>
      intro lines
      rw [List.flatMap_cons, List.foldl_append, foldl_segment (h g List.mem_cons_self),
        ih fun k hk => h k (List.mem_cons_of_mem g hk)]
      cases hg : g.code? with
      | none => simp [hg]
      | some l => simp [hg]
  rw [ofLines, hfold]
  simp

end CodeLines

end MacroAsm
