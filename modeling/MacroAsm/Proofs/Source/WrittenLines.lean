import Mathlib.Data.List.Infix
import Mathlib.Tactic.MkIffOfInductiveProp
import MacroAsm.Proofs.Source.Cutting

set_option autoImplicit false

/-! # Lines that are written

A text that is put together from lines is read as these lines, but for an empty last one, and the
code of each is the one that the line has by itself (`codes_ofText`). Text in lower case, without
`//` and without a line feed, is read as it is written, up to the blanks around it; behind the name
of a directive it is what the directive is about (`directive?_written`). -/

namespace MacroAsm.Line

/-! ## The code of one line -/

/-- The code of a line, which does not depend on where the line stands. -/
def codeOf (raw : String) : String :=
  (ofRaw "" 0 raw).code

theorem codeOf_eq (raw : String) :
    codeOf raw = String.ofList (Text.lower (Text.trim (cutComment raw.toList).1)) := rfl

/-- A directive is read off the code of its line. -/
theorem directive?_congr {l k : Line} (h : l.code = k.code) : l.directive? = k.directive? := by
  unfold directive?
  rw [h]

theorem isDirective_congr {l k : Line} (h : l.code = k.code) (name : String) :
    l.isDirective name = k.isDirective name := by
  rw [isDirective, isDirective, directive?_congr h]

/-- The carriage return of a line end makes no difference. -/
theorem codeOf_dropReturn (cs : List Char) :
    codeOf (String.ofList (Text.dropReturn cs)) = codeOf (String.ofList cs) := by
  rcases List.eq_nil_or_concat cs with rfl | ⟨cs, c, rfl⟩
  · rfl
  · rw [List.concat_eq_append, Text.dropReturn, List.getLast?_concat, List.dropLast_concat]
    split
    · next hc =>
      obtain rfl := Option.some.inj hc
      have hblank : Text.Blank ['\r'] := List.forall_mem_singleton.2 (by decide)
      simp only [codeOf_eq, String.toList_ofList, cutComment]
      rcases cutFrom_concat (c := '\r') (by decide) [] cs with h | h
      · rw [h]
      · have htrim := Text.trim_append_append_self (cutFrom [] cs).1 (List.forall_mem_nil _) hblank
        rw [List.nil_append] at htrim
        rw [h, htrim]
    · rfl

/-! ## The lines of a text -/

theorem map_code_ofText (file text : String) :
    (ofText file text).map code =
      (Text.lines text.toList).map fun l => codeOf (String.ofList l) := by
  have hfst := congrArg (List.map fun l => codeOf (String.ofList l))
    (List.zipIdx_map_fst 0 (Text.lines text.toList))
  rw [List.map_map] at hfst
  rw [ofText, List.map_map]
  exact hfst

/-- A text has the lines from which it is put together, but a last one without characters is none.
    -/
theorem codes_ofText (file : String) {raws : List String}
    (h : ∀ raw ∈ raws, '\n' ∉ raw.toList) :
    ∃ fillers : List String, (∀ code ∈ fillers, code = "") ∧
      (ofText file ("\n".intercalate raws)).map code ++ fillers = raws.map codeOf := by
  simp only [map_code_ofText]
  induction raws with
  | nil => exact ⟨[], List.forall_mem_nil _, rfl⟩
  | cons raw raws ih =>
    have hraw := h raw List.mem_cons_self
    cases raws with
    | nil =>
      rw [String.intercalate_singleton]
      by_cases hempty : raw.toList = []
      · obtain rfl := String.toList_eq_nil_iff.1 hempty
        exact ⟨[""], by simp, rfl⟩
      · refine ⟨[], List.forall_mem_nil _, ?_⟩
        rw [Text.lines_of_notMem hraw hempty, List.append_nil, List.map_singleton,
          String.ofList_toList]
        rfl
    | cons next raws =>
      obtain ⟨fillers, hfillers, hcodes⟩ := ih fun raw hmem => h raw (List.mem_cons_of_mem _ hmem)
      refine ⟨fillers, hfillers, ?_⟩
      have htext : ("\n".intercalate (raw :: next :: raws)).toList =
          raw.toList ++ '\n' :: ("\n".intercalate (next :: raws)).toList := by
        rw [String.intercalate_cons_cons, String.toList_append, String.toList_append,
          List.append_assoc]
        rfl
      rw [htext, Text.lines_append_feed hraw, List.map_cons, List.cons_append, hcodes,
        codeOf_dropReturn, String.ofList_toList]
      rfl

/-! ## Text that is code -/

/-- Text that is read as it is written, up to the blanks around it. -/
@[mk_iff]
structure IsCodeText (s : String) : Prop where
  lower : Text.lower s.toList = s.toList
  slashes : ¬ ['/', '/'] <:+: s.toList
  feed : '\n' ∉ s.toList

instance (s : String) : Decidable (IsCodeText s) :=
  decidable_of_iff' _ (isCodeText_iff s)

variable {s : String}

theorem IsCodeText.codeOf_eq (h : IsCodeText s) :
    codeOf s = String.ofList (Text.trim s.toList) := by
  have hlower : Text.lower (Text.trim s.toList) = Text.trim s.toList :=
    Text.lower_eq_self_iff.2 fun c hc =>
      Text.lower_eq_self_iff.1 h.lower c (Text.mem_of_mem_trim _ hc)
  rw [codeOf, ofRaw, cutComment, cutFrom_of_not_infix h.slashes]
  exact congrArg String.ofList hlower

/-- Letters in front of such a text change nothing. -/
theorem IsCodeText.append {front : String} (h : IsCodeText s)
    (hlower : Text.lower front.toList = front.toList) (hslash : '/' ∉ front.toList)
    (hfeed : '\n' ∉ front.toList) : IsCodeText (front ++ s) := by
  rw [Text.lower_eq_self_iff] at hlower
  refine ⟨?_, ?_, ?_⟩
  · rw [String.toList_append]
    exact Text.lower_eq_self_iff.2
      (List.forall_mem_append.2 ⟨hlower, Text.lower_eq_self_iff.1 h.lower⟩)
  · rw [String.toList_append]
    generalize front.toList = cs at hslash
    induction cs with
    | nil => exact h.slashes
    | cons c cs ih =>
      rw [List.cons_append, List.infix_cons_iff]
      rintro (hhere | hbehind)
      · obtain ⟨rfl, -⟩ := List.cons_prefix_cons.1 hhere
        exact hslash List.mem_cons_self
      · exact ih (fun hmem => hslash (List.mem_cons_of_mem c hmem)) hbehind
  · rw [String.toList_append]
    exact fun hmem => (List.mem_append.1 hmem).elim hfeed h.feed

/-! ## Directives -/

/-- A directive has the name that is written behind the mark, and is about the text behind it. -/
theorem directive?_written {l : Line} {name rest : List Char} (hne : name ≠ [])
    (hname : ∀ c ∈ name, Text.isBlank c = false)
    (hrest : ∀ c ∈ rest.head?, Text.isBlank c = true)
    (hcode : l.code = String.ofList (Text.trim ('#' :: (name ++ rest)))) :
    l.directive? = some ⟨String.ofList name, String.ofList (Text.trim rest)⟩ := by
  have hlast : ∀ c ∈ ('#' :: name).getLast?, Text.isBlank c = false := by
    intro c hc
    rw [List.getLast?_cons_of_ne_nil hne] at hc
    exact hname c (List.mem_of_mem_getLast? hc)
  have htrim : Text.trim ('#' :: (name ++ rest)) = '#' :: (name ++ Text.trimEnd rest) := by
    rw [Text.trim, Text.trimStart_cons (by decide)]
    exact Text.trimEnd_append hlast
  have hstart : Text.trimStart (name ++ Text.trimEnd rest) = name ++ Text.trimEnd rest := by
    obtain ⟨c, cs, rfl⟩ := List.exists_cons_of_ne_nil hne
    exact Text.trimStart_cons (hname c List.mem_cons_self) _
  obtain ⟨b, hb, hsplit, -⟩ := Text.exists_eq_trimEnd_append rest
  have hrestTrim : Text.trim (Text.trimEnd rest) = Text.trim rest := by
    have h := Text.trim_append_append_self (Text.trimEnd rest) (List.forall_mem_nil _) hb
    rw [List.nil_append, ← hsplit] at h
    exact h.symm
  rw [directive?, hcode, String.toList_ofList, htrim, ← hrestTrim]
  simp only [hstart]
  cases hend : Text.trimEnd rest with
  | nil =>
    rw [List.append_nil, Text.splitAtBlank_eq_none hname]
    rfl
  | cons c cs =>
    have hc : Text.isBlank c = true := by
      refine hrest c ?_
      rw [hsplit, hend]
      rfl
    rw [Text.splitAtBlank_append hname hc, Text.trim_cons_of_blank cs hc]

/-- A name that a directive can have: lower-case letters, or what is read like them. -/
@[mk_iff]
structure IsDirectiveName (name : String) : Prop where
  nonempty : name.toList ≠ []
  blanks : name.toList.any Text.isBlank = false
  lower : Text.lower name.toList = name.toList
  slash : '/' ∉ name.toList

instance (name : String) : Decidable (IsDirectiveName name) :=
  decidable_of_iff' _ (isDirectiveName_iff name)

theorem IsDirectiveName.not_isBlank {name : String} (h : IsDirectiveName name) :
    ∀ c ∈ name.toList, Text.isBlank c = false :=
  fun c hc => Bool.eq_false_iff.2 (List.any_eq_false.1 h.blanks c hc)

/-- A directive that is written with such a name and a text is about that text. -/
theorem IsCodeText.directive?_eq (h : IsCodeText s) {name : String} (hname : IsDirectiveName name)
    {l : Line} (hl : l.code = codeOf ("#" ++ name ++ " " ++ s)) :
    l.directive? = some ⟨name, String.ofList (Text.trim s.toList)⟩ := by
  have hfront : ("#" ++ name ++ " ").toList = '#' :: (name.toList ++ [' ']) := by
    rw [String.toList_append, String.toList_append]
    rfl
  have hfeed : '\n' ∉ name.toList := fun hmem => absurd (hname.not_isBlank '\n' hmem) (by decide)
  have hlower : Text.lower ('#' :: (name.toList ++ [' '])) = '#' :: (name.toList ++ [' ']) :=
    Text.lower_eq_self_iff.2 (List.forall_mem_cons.2 ⟨by decide, List.forall_mem_append.2
      ⟨Text.lower_eq_self_iff.1 hname.lower, List.forall_mem_singleton.2 (by decide)⟩⟩)
  have hraw : IsCodeText ("#" ++ name ++ " " ++ s) :=
    h.append (by rwa [hfront]) (by simp [hfront, hname.slash]) (by simp [hfront, hfeed])
  have hcode : l.code = String.ofList (Text.trim ('#' :: (name.toList ++ ' ' :: s.toList))) := by
    rw [hl, hraw.codeOf_eq, String.toList_append, hfront, List.cons_append, List.append_assoc,
      List.singleton_append]
  have hblank : ∀ c ∈ (' ' :: s.toList).head?, Text.isBlank c = true := by
    rintro c hc
    obtain rfl := Option.some.inj hc
    decide
  rw [directive?_written hname.nonempty hname.not_isBlank hblank hcode, String.ofList_toList,
    Text.trim_cons_of_blank _ (by decide)]

end MacroAsm.Line
