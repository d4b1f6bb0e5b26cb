import MacroAsm.Proofs.Text.LowerCase
import MacroAsm.Proofs.Text.Lines
import MacroAsm.Proofs.Text.Trimming
import MacroAsm.Source.Line

set_option autoImplicit false

/-! # Code and comment of a line

A line whose code has no `/` of its own is cut right behind that code, and nothing in its comment
is ever taken for code (`ofRaw_commented`). Code and comment come out trimmed, and no line feed is
left in a comment. -/

namespace MacroAsm.Line

/-! ## Cutting -/

variable {code comment : List Char}

/-- Code without `/` is passed over. -/
theorem cutFrom_append (hcode : '/' ∉ code) (before rest : List Char) :
    cutFrom before (code ++ rest) = cutFrom (code.reverse ++ before) rest := by
  induction code generalizing before with
  | nil => rfl
  | cons c code ih =>
    have hc : c ≠ '/' := fun h => hcode (h ▸ List.mem_cons_self)
    have htail : '/' ∉ code := fun h => hcode (List.mem_cons_of_mem c h)
    rw [List.cons_append, cutFrom, ih htail, List.reverse_cons, List.append_assoc]
    · rfl
    · exact fun _ h => absurd h hc

theorem cutComment_of_notMem (hcode : '/' ∉ code) : cutComment code = (code, none) := by
  have h := cutFrom_append hcode [] []
  rw [List.append_nil] at h
  rw [cutComment, h, cutFrom, List.append_nil, List.reverse_reverse]

theorem cutComment_append (hcode : '/' ∉ code) :
    cutComment (code ++ '/' :: '/' :: comment) = (code, some comment) := by
  rw [cutComment, cutFrom_append hcode, cutFrom, List.append_nil, List.reverse_reverse]

/-- Nothing is cut off where no two slashes stand side by side. -/
theorem cutFrom_of_not_infix {cs : List Char} (h : ¬ ['/', '/'] <:+: cs) (before : List Char) :
    cutFrom before cs = (before.reverse ++ cs, none) := by
  fun_induction cutFrom before cs with
  | case1 before => rw [List.append_nil]
  | case2 before comment => exact absurd ⟨[], comment, rfl⟩ h
  | case3 before c cs _ ih =>
    rw [ih fun hcs => h (hcs.trans (List.suffix_cons c cs).isInfix), List.reverse_cons,
      List.append_assoc, List.singleton_append]

/-- A last character that is no slash belongs to the code or to the comment, and that is all. -/
theorem cutFrom_concat {c : Char} (hc : c ≠ '/') (before cs : List Char) :
    (cutFrom before (cs ++ [c])).1 = (cutFrom before cs).1 ∨
      (cutFrom before (cs ++ [c])).1 = (cutFrom before cs).1 ++ [c] := by
  fun_induction cutFrom before cs with
  | case1 before =>
    refine .inr ?_
    rw [List.nil_append, cutFrom, cutFrom, List.reverse_cons]
    exact fun _ h _ => hc h
  | case2 before comment => exact .inl rfl
  | case3 before d cs hd ih =>
    rw [List.cons_append, cutFrom]
    · exact ih
    · rintro rest rfl hrest
      cases cs with
      | nil => exact hc (List.cons_eq_cons.1 hrest).1
      | cons e cs =>
        obtain ⟨rfl, -⟩ := List.cons_eq_cons.1 hrest
        exact hd cs rfl rfl

/-! ## Reading -/

/-- Text that is read as code: it is trimmed, in lower case and has no `/`. -/
structure IsCode (cs : List Char) : Prop where
  trimmed : Text.Trimmed cs
  lower : Text.lower cs = cs
  slash : '/' ∉ cs

variable (file : String) (index : Nat) {raw : String}

theorem ofRaw_code (hcode : IsCode code) (hraw : raw.toList = code) :
    (ofRaw file index raw).code = String.ofList code ∧ (ofRaw file index raw).comment = none := by
  unfold ofRaw
  rw [hraw, cutComment_of_notMem hcode.slash]
  simp only [Text.trim_eq_self hcode.trimmed, hcode.lower, Option.map_none, and_self]

/-- Blanks around code and comment are dropped. -/
theorem ofRaw_commented (hcode : IsCode code) (hcomment : Text.Trimmed comment)
    {before behind : List Char} (hbefore : Text.Blank before) (hslash : '/' ∉ before)
    (hbehind : Text.Blank behind)
    (hraw : raw.toList = code ++ before ++ '/' :: '/' :: (behind ++ comment)) :
    (ofRaw file index raw).code = String.ofList code ∧
      (ofRaw file index raw).comment = some (String.ofList comment) := by
  have hnotMem : '/' ∉ code ++ before := by
    intro h
    rcases List.mem_append.1 h with h | h
    · exact hcode.slash h
    · exact hslash h
  have hempty : Text.Blank [] := by simp [Text.Blank]
  have htrim : Text.trim (code ++ before) = code := by
    simpa using Text.trim_append_append hempty hbefore hcode.trimmed
  have htrim' : Text.trim (behind ++ comment) = comment := by
    simpa using Text.trim_append_append hbehind hempty hcomment
  unfold ofRaw
  rw [hraw, cutComment_append hnotMem]
  simp only [htrim, hcode.lower, Option.map_some, htrim', and_self]

/-! ## Comments -/

/-- A comment as it is kept: trimmed and without a line feed. -/
structure IsComment (comment : String) : Prop where
  trimmed : Text.Trimmed comment.toList
  feed : '\n' ∉ comment.toList

theorem mem_of_mem_cutFrom {before cs rest : List Char} (h : (cutFrom before cs).2 = some rest)
    {c : Char} (hc : c ∈ rest) : c ∈ cs := by
  fun_induction cutFrom before cs with
  | case1 => simp at h
  | case2 before comment =>
    obtain rfl := Option.some.inj h
    exact List.mem_cons_of_mem _ (List.mem_cons_of_mem _ hc)
  | case3 before d cs _ ih => exact List.mem_cons_of_mem d (ih h)

/-- All comments of a text are kept like this. -/
theorem isComment_of_mem_ofText {file text : String} {l : Line} (hl : l ∈ ofText file text)
    {c : String} (hc : l.comment = some c) : IsComment c := by
  obtain ⟨x, hx, rfl⟩ := List.mem_map.1 hl
  obtain ⟨rest, hrest, rfl⟩ := Option.map_eq_some_iff.1 hc
  rw [String.toList_ofList] at hrest
  refine ⟨?_, fun hfeed => ?_⟩
  · rw [String.toList_ofList]
    exact Text.trimmed_trim rest
  · rw [String.toList_ofList] at hfeed
    have hline : x.1 ∈ Text.lines text.toList := List.fst_mem_of_mem_zipIdx hx
    refine Text.feed_notMem_of_mem_lines hline ?_
    exact mem_of_mem_cutFrom hrest (Text.mem_of_mem_trim rest hfeed)

/-! ## Directives -/

/-- Only code that begins with `#` is a directive. -/
theorem directive?_eq_none {l : Line} (h : '#' ∉ l.code.toList) : l.directive? = none := by
  unfold directive?
  split
  · next heq =>
    rw [heq] at h
    exact absurd List.mem_cons_self h
  · rfl

end MacroAsm.Line
