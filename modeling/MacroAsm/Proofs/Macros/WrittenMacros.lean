import Mathlib.Tactic.MkIffOfInductiveProp
import MacroAsm.Proofs.Macros.Definitions
import MacroAsm.Proofs.Macros.Pieces
import MacroAsm.Proofs.Source.WrittenLines
import MacroAsm.Proofs.Text.Spacing

set_option autoImplicit false

/-! # Macros that are written

A macro is written with the text of its opener, its lines and its closer. Where a macro can have
these parts, its lines are read as the macro of these parts (`MacroReader.foldl_raws`): nothing but
the spacing of opener and closer is lost on the way. There is such a macro exactly if the matcher
for its opener is within the limit (`MacroSource.WellFormed.asMacro_eq`). -/

namespace MacroAsm

/-! ## Writing -/

/-- The parts of a macro as they are written. -/
structure MacroSource where
  opener : String
  closer : Option String
  top : List String
  bottom : List String
  wraps : Bool

/-- A line of a body: trimmed code that means nothing to the reader of macros. -/
@[mk_iff]
structure IsBodyCode (code : String) : Prop extends Line.IsCodeText code where
  nonempty : code ≠ ""
  trimmed : Text.Trimmed code.toList
  dots : code ≠ "..."
  begins : (Line.ofRaw "" 0 code).isDirective "macro" = false
  ends : (Line.ofRaw "" 0 code).isDirective "endmacro" = false

instance (code : String) : Decidable (IsBodyCode code) :=
  decidable_of_iff' _ (isBodyCode_iff code)

namespace MacroSource

/-- The text of the opener in normal spacing, under which the macro is known. -/
def name (d : MacroSource) : String :=
  String.ofList (Text.normalize d.opener.toList)

/-- The macro of the parts. -/
def asMacro (d : MacroSource) : Except MacroError Macro :=
  Macro.ofParts d.opener d.closer d.top d.bottom d.wraps

/-- The text of the closer, up to the blanks around it. -/
def closerText (d : MacroSource) : String :=
  String.ofList (Text.trim ((d.closer.map String.toList).getD []))

/-- The line that ends the macro. -/
def lastRaw (d : MacroSource) : String :=
  match d.closer with
  | some closer => "#endmacro " ++ closer
  | none => "#endmacro"

/-- The lines between the first and the last one of the macro. -/
def body (d : MacroSource) : List String :=
  d.top ++ if d.wraps then "..." :: d.bottom else []

/-- The lines of the macro. -/
def raws (d : MacroSource) : List String :=
  ("#macro " ++ d.opener) :: (d.body ++ [d.lastRaw])

/-- Parts that a macro can have. -/
@[mk_iff]
structure WellFormed (d : MacroSource) : Prop where
  named : Text.normalize d.opener.toList ≠ []
  kinds : ∀ letters ∈
    (Text.Cut.ofChars '%' Opener.readToken? (Text.normalize d.opener.toList)).tokens,
      (OperandKind.parse (String.ofList ('%' :: letters))).isOk = true
  opener : Line.IsCodeText d.opener
  closer : ∀ closer ∈ d.closer, Line.IsCodeText closer
  top : ∀ code ∈ d.top, IsBodyCode code
  bottom : ∀ code ∈ d.bottom, IsBodyCode code
  plain : d.wraps = false → d.bottom = []
  closed : d.wraps = true → d.closerText ≠ ""

instance (d : MacroSource) : Decidable d.WellFormed :=
  decidable_of_iff' _ (wellFormed_iff d)

/-- The matcher for the opener is within the limit. -/
def Fits (d : MacroSource) : Prop :=
  ∀ o, Opener.ofChars (Text.normalize d.opener.toList) = .ok o →
    (MatcherSize.ofOpener o).fits = true

instance (d : MacroSource) : Decidable d.Fits :=
  decidable_of_iff
    ((Opener.ofChars (Text.normalize d.opener.toList)).toOption.all
      fun o => (MatcherSize.ofOpener o).fits) <| by
    rw [Fits]
    cases Opener.ofChars (Text.normalize d.opener.toList) with
    | error e => simp [Except.toOption]
    | ok o => simp [Except.toOption]

end MacroSource

/-! ## The macro of the parts -/

namespace Macro

variable {opener opener' : String} {closer closer' : Option String} {top bottom : List String}
  {wraps : Bool}

/-- Only the normal spacing of opener and closer counts. -/
theorem ofParts_congr (hopener : Text.normalize opener.toList = Text.normalize opener'.toList)
    (hcloser : closer.bind closerOf = closer'.bind closerOf) :
    ofParts opener closer top bottom wraps = ofParts opener' closer' top bottom wraps := by
  unfold ofParts
  rw [hopener, hcloser]

end Macro

namespace MacroSource

variable {d : MacroSource}

/-- Blanks around a closer make no difference, and blanks alone are no closer. -/
theorem bind_closerOf_trim (cs : List Char) :
    (if (String.ofList (Text.trim cs)).isEmpty then none
      else some (String.ofList (Text.trim cs))).bind Macro.closerOf =
        Macro.closerOf (String.ofList cs) := by
  have hcloser : Macro.closerOf (String.ofList (Text.trim cs)) =
      Macro.closerOf (String.ofList cs) := by
    simp only [Macro.closerOf, String.toList_ofList, Text.normalize_trim]
  split
  · next hempty =>
    rw [← hcloser, String.isEmpty_iff.1 hempty, Option.bind_none]
    decide
  · rw [Option.bind_some, hcloser]

/-- Blanks around opener and closer make no difference. -/
theorem ofParts_trim (d : MacroSource) :
    Macro.ofParts (String.ofList (Text.trim d.opener.toList))
      (if d.closerText.isEmpty then none else some d.closerText) d.top d.bottom d.wraps =
        d.asMacro := by
  refine Macro.ofParts_congr ?_ ?_
  · rw [String.toList_ofList, Text.normalize_trim]
  · rw [closerText, bind_closerOf_trim]
    cases d.closer with
    | none => decide
    | some closer =>
      rw [Option.map_some, Option.getD_some, String.ofList_toList, Option.bind_some]

/-- There is a macro of the parts if there is a matcher for the opener. -/
theorem WellFormed.asMacro_eq (h : d.WellFormed) :
    ∃ o, Opener.ofChars (Text.normalize d.opener.toList) = .ok o ∧ d.asMacro =
      if (MatcherSize.ofOpener o).fits then
        .ok ⟨o, d.closer.bind Macro.closerOf, d.top, d.bottom, d.wraps, none⟩
      else .error (.tooLarge d.name) := by
  obtain ⟨o, ho⟩ := Opener.exists_ofChars_eq_ok h.kinds
  refine ⟨o, ho, ?_⟩
  unfold asMacro Macro.ofParts name
  split
  · next hnil => exact absurd hnil h.named
  · simp only [ho]

/-- Within the limit there is a macro of the parts, and it is known under the name. -/
theorem WellFormed.exists_asMacro (h : d.WellFormed) (hfits : d.Fits) :
    ∃ m, d.asMacro = .ok m ∧ m.name = d.name := by
  obtain ⟨o, ho, hm⟩ := h.asMacro_eq
  rw [if_pos (hfits o ho)] at hm
  exact ⟨_, hm, (Opener.piecesOf_of_ofChars ho).written_eq⟩

/-- The first line begins the macro, with its opener. -/
theorem WellFormed.directive?_first (h : d.WellFormed) {l : Line}
    (hl : l.code = Line.codeOf ("#macro " ++ d.opener)) :
    l.directive? = some ⟨"macro", String.ofList (Text.trim d.opener.toList)⟩ := by
  have hname : Line.IsDirectiveName "macro" := by decide
  exact h.opener.directive?_eq hname hl

/-- The last line ends the macro, with its closer. -/
theorem WellFormed.directive?_last (h : d.WellFormed) {l : Line}
    (hl : l.code = Line.codeOf d.lastRaw) :
    l.directive? = some ⟨"endmacro", d.closerText⟩ := by
  have hname : Line.IsDirectiveName "endmacro" := by decide
  unfold lastRaw at hl
  unfold closerText
  cases hcloser : d.closer with
  | none =>
    rw [hcloser] at hl
    have hcode : l.code = String.ofList (Text.trim ('#' :: ("endmacro".toList ++ []))) := by
      rw [hl]
      decide
    exact Line.directive?_written hname.nonempty hname.not_isBlank (by simp) hcode
  | some closer =>
    rw [hcloser] at hl
    exact (h.closer closer hcloser).directive?_eq hname hl

/-- Each line is one line. -/
theorem WellFormed.feed_notMem (h : d.WellFormed) : ∀ raw ∈ d.raws, '\n' ∉ raw.toList := by
  have hfirst : '\n' ∉ ("#macro " ++ d.opener).toList :=
    (h.opener.append (by decide) (by decide) (by decide)).feed
  have hbody : ∀ raw ∈ d.body, '\n' ∉ raw.toList := by
    refine List.forall_mem_append.2 ⟨fun code hcode => (h.top code hcode).feed, ?_⟩
    split
    · exact List.forall_mem_cons.2 ⟨by decide, fun code hcode => (h.bottom code hcode).feed⟩
    · exact List.forall_mem_nil _
  have hlast : '\n' ∉ d.lastRaw.toList := by
    unfold lastRaw
    cases hcloser : d.closer with
    | none => decide
    | some closer =>
      exact ((h.closer closer hcloser).append (by decide) (by decide) (by decide)).feed
  exact List.forall_mem_cons.2
    ⟨hfirst, List.forall_mem_append.2 ⟨hbody, List.forall_mem_singleton.2 hlast⟩⟩

end MacroSource

/-! ## One macro -/

theorem IsBodyCode.codeOf_eq {code : String} (h : IsBodyCode code) : Line.codeOf code = code := by
  rw [h.toIsCodeText.codeOf_eq, Text.trim_eq_self h.trimmed, String.ofList_toList]

namespace MacroReader

variable {r : MacroReader}

theorem foldl_addCode_top {m : OpenMacro} (h : m.wraps = false) (codes : List String) :
    codes.foldl OpenMacro.addCode m = { m with top := codes.reverse ++ m.top } := by
  induction codes generalizing m with
  | nil => rfl
  | cons code codes ih =>
    have hadd : OpenMacro.addCode m code = { m with top := code :: m.top } := by
      rw [OpenMacro.addCode, if_neg (by simp [h])]
    rw [List.foldl_cons, hadd, ih (by exact h), List.reverse_cons, List.append_assoc]
    rfl

theorem foldl_addCode_bottom {m : OpenMacro} (h : m.wraps = true) (codes : List String) :
    codes.foldl OpenMacro.addCode m = { m with bottom := codes.reverse ++ m.bottom } := by
  induction codes generalizing m with
  | nil => rfl
  | cons code codes ih =>
    have hadd : OpenMacro.addCode m code = { m with bottom := code :: m.bottom } := by
      rw [OpenMacro.addCode, if_pos h]
    rw [List.foldl_cons, hadd, ih (by exact h), List.reverse_cons, List.append_assoc]
    rfl

/-- The lines of a body are added one after the other. -/
theorem foldl_step_body {m : OpenMacro} (h : r.current = some m) {lines : List Line}
    {codes : List String} (hcodes : ∀ code ∈ codes, IsBodyCode code)
    (hlines : lines.map Line.code = codes.map Line.codeOf) :
    lines.foldl step r = { r with current := some (codes.foldl OpenMacro.addCode m) } := by
  induction codes generalizing r m lines with
  | nil =>
    obtain rfl := List.map_eq_nil_iff.1 hlines
    obtain ⟨table, current, report⟩ := r
    obtain rfl : current = some m := h
    rfl
  | cons code codes ih =>
    obtain ⟨l, lines, rfl, hl, hrest⟩ := List.map_eq_cons_iff.1 hlines
    have hcode := hcodes code List.mem_cons_self
    have hempty : l.code.isEmpty = false := by
      rw [hl, hcode.codeOf_eq, Bool.eq_false_iff, Ne, String.isEmpty_iff]
      exact hcode.nonempty
    have hdots : l.code ≠ "..." := by
      rw [hl, hcode.codeOf_eq]
      exact hcode.dots
    rw [List.foldl_cons, step_of_code h ((Line.isDirective_congr hl _).trans hcode.begins)
      ((Line.isDirective_congr hl _).trans hcode.ends) hdots hempty,
      ih rfl (fun k hk => hcodes k (List.mem_cons_of_mem code hk)) hrest, hl, hcode.codeOf_eq]
    rfl

/-- What a reader makes of a macro that is written. -/
def enter (r : MacroReader) (d : MacroSource) (start : Line) : MacroReader :=
  match d.asMacro with
  | .error e => r.addMessage (.about .error e.message start.position)
  | .ok m => r.define start { m with position := some start.position }

/-- The end of a macro whose parts have been read. -/
theorem finish_eq_enter {d : MacroSource} (hd : d.WellFormed) (h : r.current = none)
    (start l : Line) (current : Option OpenMacro) :
    finish { r with current }
      ⟨String.ofList (Text.trim d.opener.toList), start, d.top.reverse, d.bottom.reverse, d.wraps⟩
      d.closerText l = r.enter d start := by
  obtain ⟨table, none', report⟩ := r
  obtain rfl : none' = none := h
  have hcloser : (d.wraps && d.closerText.isEmpty) = false := by
    cases hwraps : d.wraps with
    | false => rfl
    | true => simpa using hd.closed hwraps
  have hparts := d.ofParts_trim
  unfold finish enter
  dsimp only
  rw [hcloser, if_neg Bool.false_ne_true, List.reverse_reverse, List.reverse_reverse]
  cases hmade : d.asMacro with
  | error e => rw [hparts, hmade]
  | ok m => rw [hparts, hmade]

/-- The lines of a body are read as its top and its bottom. -/
theorem foldl_bodyRaws {d : MacroSource} (hd : d.WellFormed) {opener : String} {start : Line}
    (h : r.current = some ⟨opener, start, [], [], false⟩) {lines : List Line}
    (hlines : lines.map Line.code = d.body.map Line.codeOf) :
    lines.foldl step r =
      { r with current := some ⟨opener, start, d.top.reverse, d.bottom.reverse, d.wraps⟩ } := by
  rw [MacroSource.body, List.map_append] at hlines
  obtain ⟨top, bottom, rfl, htop, hbottom⟩ := List.map_eq_append_iff.1 hlines
  rw [List.foldl_append, foldl_step_body h hd.top htop, foldl_addCode_top rfl, List.append_nil]
  cases hwraps : d.wraps with
  | false =>
    rw [hwraps, if_neg Bool.false_ne_true] at hbottom
    obtain rfl := List.map_eq_nil_iff.1 hbottom
    rw [hd.plain hwraps]
    rfl
  | true =>
    rw [hwraps, if_pos rfl, List.map_cons] at hbottom
    obtain ⟨dots, bottom, rfl, hdots, hbottom⟩ := List.map_eq_cons_iff.1 hbottom
    have hcode : dots.code = "..." := hdots.trans (by decide)
    have hplain (name : String) : dots.isDirective name = false :=
      Line.isDirective_of_none (Line.directive?_eq_none (by rw [hcode]; decide)) name
    rw [List.foldl_cons, step_of_line rfl (hplain _) (hplain _), addLine, if_pos hcode]
    dsimp only
    rw [if_neg Bool.false_ne_true, foldl_step_body rfl hd.bottom hbottom,
      foldl_addCode_bottom rfl, List.append_nil]

/-- The lines of a macro are read as the macro of its parts. -/
theorem foldl_raws {d : MacroSource} (hd : d.WellFormed) (h : r.current = none)
    {lines : List Line} (hlines : lines.map Line.code = d.raws.map Line.codeOf) :
    ∃ start, lines.foldl step r = r.enter d start := by
  rw [MacroSource.raws, List.map_cons, List.map_append] at hlines
  obtain ⟨start, lines, rfl, hstart, hlines⟩ := List.map_eq_cons_iff.1 hlines
  obtain ⟨body, lines, rfl, hbody, hlines⟩ := List.map_eq_append_iff.1 hlines
  obtain ⟨stop, rfl, hstop⟩ := List.map_eq_singleton_iff.1 hlines
  have hfirst := hd.directive?_first hstart
  have hlast := hd.directive?_last hstop
  have hopener : restOf start = String.ofList (Text.trim d.opener.toList) := by
    rw [restOf, hfirst]
    rfl
  have hcloser : restOf stop = d.closerText := by
    rw [restOf, hlast]
    rfl
  refine ⟨start, ?_⟩
  rw [List.foldl_cons, step_of_start h (Line.isDirective_of_some hfirst _), List.foldl_append,
    foldl_bodyRaws hd rfl hbody, List.foldl_cons, List.foldl_nil,
    step_of_stop rfl (Line.isDirective_of_some hlast _), hopener, hcloser]
  exact finish_eq_enter hd h start stop _

end MacroReader

end MacroAsm
