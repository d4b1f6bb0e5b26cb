import MacroAsm.Proofs.Target.NasmLines
import MacroAsm.Target.Target

set_option autoImplicit false

/-! # Assembler text of a program

The built-in template and the code, read as one text: what the text says is what the template says,
and then what the lines of the code say (`Nasm.exists_elements_render`). -/

namespace MacroAsm

namespace Nasm

open Assembly Template

/-! ## The template -/

/-- The lines of the template in front of the sizes. -/
def linesBefore : List String :=
  builtinNasm.take 2

/-- The lines behind the sizes, without that of the code. -/
def linesBehind : List String :=
  (builtinNasm.drop 5).dropLast

theorem builtinNasm_eq : builtinNasm = linesBefore ++
    ["%define MEMORY_SIZE %memory_size", "%define STACK_SIZE %stack_size",
      "%define REGISTER_COUNT %register_count"] ++ linesBehind ++ ["    %code"] := rfl

/-- Lines that stay as they are, and the names that they define. -/
structure Fixed (lines labels : List String) : Prop where
  line : ∀ l ∈ lines, isFixed l.toList = true ∧ Unbroken l.toList
  labels : (lines.flatMap fun l => elementsOf l.toList).filterMap Element.label? = labels

/-- Lines can be looked at character by character. -/
theorem fixed_of_chars {lines labels : List String} {css : List (List Char)}
    (h : lines = css.map String.ofList) (hline : ∀ cs ∈ css, isFixed cs = true ∧ Unbroken cs)
    (hlabels : (css.flatMap elementsOf).filterMap Element.label? = labels) : Fixed lines labels := by
  subst h
  refine ⟨?_, ?_⟩
  · intro l hl
    obtain ⟨cs, hcs, rfl⟩ := List.mem_map.1 hl
    rw [String.toList_ofList]
    exact hline cs hcs
  · simpa only [List.flatMap_map, String.toList_ofList] using hlabels

theorem cons_eq_map_ofList {s : String} {cs : List Char} {ls : List String}
    {css : List (List Char)} (h : s = String.ofList cs) (hls : ls = css.map String.ofList) :
    s :: ls = (cs :: css).map String.ofList := by
  rw [h, hls, List.map_cons]

theorem fixed_linesBefore : Fixed linesBefore [] := by
  apply fixed_of_chars
  · -- the characters of each line are those of the literal
    simp only [linesBefore, builtinNasm, List.take]
    repeat apply cons_eq_map_ofList rfl
    exact List.map_nil.symm
  · decide +kernel
  · decide +kernel

/-- The names that the template defines. -/
def templateLabels : List String :=
  ["memory", "stack", "registers", "out_fmt", "main", "mccpu_end", "mccpu_dispatch", "mccpu_push",
    ".done", "mccpu_pop", ".dec", "mccpu_out", "mccpu_program"]

theorem fixed_linesBehind : Fixed linesBehind templateLabels := by
  apply fixed_of_chars
  · simp only [linesBehind, builtinNasm, List.drop, List.dropLast]
    repeat apply cons_eq_map_ofList rfl
    exact List.map_nil.symm
  · decide +kernel
  · decide +kernel

/-! ## Rendered lines -/

section Lines

variable {v : TemplateValues}

/-- The lines that one line of a template becomes. -/
def linesOfLine (v : TemplateValues) (l : String) : List (List Char) :=
  (renderLine v l.toList).toList.splitOn '\n'

theorem flatMap_linesOfLine_of_fixed {lines labels : List String} (h : Fixed lines labels) :
    lines.flatMap (linesOfLine v) = lines.map String.toList := by
  have hline : ∀ l ∈ lines, linesOfLine v l = [l.toList] := by
    intro l hl
    obtain ⟨hfixed, hbreak⟩ := h.line l hl
    rw [linesOfLine, renderLine_of_isFixed hfixed]
    exact Text.splitOn_of_notMem hbreak.2
  rw [List.flatMap_def, List.map_congr_left hline, ← List.flatMap_def, ← List.map_eq_flatMap]

/-- A line that defines a size. -/
def sizeLine (name : String) (n : Nat) : String :=
  joinOperands "%define" [name ++ " " ++ toString n]

theorem linesOfLine_size {l name : String} (place : List Char) {n : Nat}
    (hcut : cut l.toList = ⟨[], [("define".toList, ' ' :: name.toList ++ [' ']), (place, [])]⟩)
    (hindent : indentOf l.toList = "") (hvalue : v.find? (String.ofList place) = some (toString n))
    (hname : Unbroken name.toList) : linesOfLine v l = [(sizeLine name n).toList] := by
  have hdefine : v.find? "define" = none := find?_eq_none (by decide)
  have hdigits := (uncut_toString n).2.2
  have hvalueLine := indented_of_notMem "" hdigits.2
  have hline : renderLine v l.toList = sizeLine name n := by
    rw [renderLine, hcut, hindent]
    rw [← String.toList_inj, Text.Cut.toList_fillText]
    simp only [Text.Cut.fill, filling, hdefine, hvalue, hvalueLine, String.ofList_toList,
      List.flatMap_cons]
    simp [sizeLine, joinOperands]
  have hbreak : Unbroken (sizeLine name n).toList := by
    have hlist : (sizeLine name n).toList =
        "%define ".toList ++ name.toList ++ [' '] ++ (toString n).toList := by
      simp [sizeLine, joinOperands]
    rw [hlist]
    exact ((Unbroken.append (by decide) hname).append (by decide)).append hdigits
  rw [linesOfLine, hline]
  exact Text.splitOn_of_notMem hbreak.2

/-- The lines of the sizes. -/
def sizeLines (v : TemplateValues) : List String :=
  [sizeLine "MEMORY_SIZE" v.memorySize, sizeLine "STACK_SIZE" v.stackSize,
    sizeLine "REGISTER_COUNT" v.registerCount]

theorem flatMap_linesOfLine_sizes :
    ["%define MEMORY_SIZE %memory_size", "%define STACK_SIZE %stack_size",
      "%define REGISTER_COUNT %register_count"].flatMap (linesOfLine v) =
      (sizeLines v).map String.toList := by
  have hmemory : linesOfLine v "%define MEMORY_SIZE %memory_size" =
      [(sizeLine "MEMORY_SIZE" v.memorySize).toList] :=
    linesOfLine_size "memory_size".toList rfl rfl rfl (by decide)
  have hstack : linesOfLine v "%define STACK_SIZE %stack_size" =
      [(sizeLine "STACK_SIZE" v.stackSize).toList] :=
    linesOfLine_size "stack_size".toList rfl rfl rfl (by decide)
  have hregisters : linesOfLine v "%define REGISTER_COUNT %register_count" =
      [(sizeLine "REGISTER_COUNT" v.registerCount).toList] :=
    linesOfLine_size "register_count".toList rfl rfl rfl (by decide)
  simp [hmemory, hstack, hregisters, sizeLines]

theorem elementsOf_sizeLine {name : String} {n : Nat} (hname : IsName name) :
    elementsOf (sizeLine name n).toList = [.operation "%define" [name ++ " " ++ toString n]] := by
  have hdigits := isOperand_toString n
  have hlist : (name ++ " " ++ toString n).toList = name.toList ++ [' '] ++ (toString n).toList := by
    simp
  have hargument : IsArgument (name ++ " " ++ toString n) := by
    refine ⟨?_, ?_, ?_⟩
    · rw [hlist]
      exact hname.isMnemonic.trimmed.append hdigits.trimmed hname.nonempty hdigits.nonempty _
    · have hcomma : ',' ∉ name.toList := fun hc => (isNameChar_facts (hname.name _ hc)).2.2.2.2 rfl
      rw [hlist]
      simpa [hcomma] using hdigits.comma
    · simp [hname.nonempty]
  have huncut : Uncut (name ++ " " ++ toString n).toList := by
    rw [hlist]
    exact (hname.uncut.append (by decide)).append hdigits.uncut
  have hdefine : IsMnemonic "%define" := by
    have hall : ("%define".toList.all fun c => !Text.isBlank c) = true := by decide
    refine ⟨by decide, fun c hc => ?_⟩
    simpa using List.all_eq_true.1 hall c hc
  exact elementsOf_unnamed hdefine (by decide) (by decide) (by simpa using hargument)
    (by simpa using huncut)

/-- The sizes define no labels. -/
theorem labels_sizeLines : ((sizeLines v).flatMap fun l => elementsOf l.toList).filterMap
    Element.label? = [] := by
  have hmemory : IsName "MEMORY_SIZE" := by decide
  have hstack : IsName "STACK_SIZE" := by decide
  have hregisters : IsName "REGISTER_COUNT" := by decide
  simp [sizeLines, elementsOf_sizeLine hmemory, elementsOf_sizeLine hstack,
    elementsOf_sizeLine hregisters]

theorem unbroken_sizeLines : ∀ l ∈ sizeLines v, Unbroken l.toList := by
  have hline (name : String) (n : Nat) (hname : Unbroken name.toList) :
      Unbroken (sizeLine name n).toList := by
    have hlist : (sizeLine name n).toList =
        "%define ".toList ++ name.toList ++ [' '] ++ (toString n).toList := by
      simp [sizeLine, joinOperands]
    rw [hlist]
    exact ((Unbroken.append (by decide) hname).append (by decide)).append (uncut_toString n).2.2
  intro l hl
  simp only [sizeLines, List.mem_cons, List.not_mem_nil, or_false] at hl
  rcases hl with rfl | rfl | rfl
  · exact hline _ _ (by decide)
  · exact hline _ _ (by decide)
  · exact hline _ _ (by decide)

end Lines

/-! ## The whole text -/

/-- The text of the template. -/
def templateText : String :=
  String.join (builtinNasm.map (· ++ "\n"))

theorem hasCode_templateText : hasCode templateText = true := by
  have hlast : templateText =
      String.join ((linesBefore ++ ["%define MEMORY_SIZE %memory_size",
        "%define STACK_SIZE %stack_size", "%define REGISTER_COUNT %register_count"] ++
        linesBehind).map (· ++ "\n")) ++ "    %code\n" := by
    rw [templateText, builtinNasm_eq, List.map_append, String.join_append]
    rfl
  rw [hlast]
  exact hasCode_append (by decide +kernel)

/-- Without a file that replaces it, the template is the built-in one. -/
theorem render_eq {tree : FileTree} {o : Options} {p : Program}
    (hbuiltin : (o.templateDirectory.map fun d => Path.join d "nasm-x64.asm").filter tree.isFile =
      none) :
    Target.nasm.render tree o p =
      .ok (render ⟨"nasm-x64.asm", templateText⟩ (.ofOptions o (code p))) := by
  have htext : builtin? "nasm-x64.asm" = some templateText := by
    simp [builtin?, builtins, templateText]
  have hload : load tree "nasm-x64.asm" o.templateDirectory =
      .ok ⟨"nasm-x64.asm", templateText⟩ := by
    unfold load
    rw [hbuiltin]
    simp only [htext, ofText, hasCode_templateText, if_true]
  simp only [Target.render, Target.framed, hload]

theorem ne_nil_of_mem_rows {n : Nat} {row : List Nat} (h : row ∈ rows n) : row ≠ [] := by
  obtain ⟨i, hi, rfl⟩ := List.mem_map.1 h
  have hlt : i < (n + 7) / 8 := List.mem_range.1 hi
  intro hnil
  have hlength := congrArg List.length hnil
  rw [List.length_range'] at hlength
  simp only [List.length_nil] at hlength
  have hmin : Nat.min 8 (n - 8 * i) = min 8 (n - 8 * i) := rfl
  omega

/-- No line of the code is broken if no text of an instruction is. -/
theorem unbroken_items {p : Program} (hsource : ∀ s ∈ p.source, Unbroken s.toList) :
    ∀ item ∈ items p, item ≠ .row [] ∧ Unbroken item.written.toList := by
  have hitem : ∀ item ∈ items p, item ≠ .row [] ∧
      ∀ pc source, item = .slot pc (some source) → source ∈ p.source := by
    intro item hmem
    simp only [items, List.mem_append, List.mem_flatMap, List.mem_map, List.mem_cons,
      List.not_mem_nil, or_false] at hmem
    rcases hmem with ((⟨x, -, hx⟩ | hmem) | ⟨row, hrow, rfl⟩) | rfl | rfl
    · rcases List.mem_cons.1 hx with rfl | hx
      · refine ⟨by simp, ?_⟩
        intro pc source heq
        simp only [Item.slot.injEq] at heq
        exact Array.mem_toList_iff.2 (Array.mem_of_getElem? heq.2)
      · obtain ⟨i, -, rfl⟩ := List.mem_map.1 hx
        exact ⟨by simp, by simp⟩
    · rcases hmem with rfl | rfl | rfl | rfl | rfl | rfl
      all_goals exact ⟨by simp, by simp⟩
    · refine ⟨?_, by simp⟩
      intro heq
      exact ne_nil_of_mem_rows hrow (Item.row.inj heq)
    · exact ⟨by simp, by simp⟩
    · exact ⟨by simp, by simp⟩
  intro item hmem
  obtain ⟨hrow, htext⟩ := hitem item hmem
  refine ⟨hrow, unbroken_written hrow ?_⟩
  intro pc source heq
  exact hsource source (htext pc source heq)

theorem linesOfLine_code {v : TemplateValues} {lines : List String} (hne : lines ≠ [])
    (hbreak : ∀ l ∈ lines, Unbroken l.toList) (hcode : v.code = String.intercalate "\n" lines) :
    linesOfLine v "    %code" = lines.map fun l => "    ".toList ++ l.toList := by
  have hcut : cut "    %code".toList = ⟨"    ".toList, [("code".toList, [])]⟩ := rfl
  have hindent : indentOf "    %code".toList = "    " := by decide
  have hvalue : v.find? "code" = some v.code := by simp [TemplateValues.find?]
  have hline : (renderLine v "    %code".toList).toList =
      "    ".toList ++ (indented "    " (String.intercalate "\n" lines)).toList := by
    rw [renderLine, hcut, hindent, Text.Cut.toList_fillText]
    simp only [Text.Cut.fill, filling, hvalue, hcode, String.ofList_toList, List.flatMap_cons,
      List.flatMap_nil, List.append_nil]
  rw [linesOfLine, hline]
  exact splitOn_indented hne (fun l hl => (hbreak l hl).2) (by decide)

theorem feed_notMem_builtinNasm : ∀ l ∈ builtinNasm, '\n' ∉ l.toList := by
  intro l hl
  rw [builtinNasm_eq] at hl
  simp only [List.mem_append, List.mem_cons, List.not_mem_nil, or_false] at hl
  rcases hl with ((hl | rfl | rfl | rfl) | hl) | rfl
  · exact (fixed_linesBefore.line l hl).2.2
  · decide
  · decide
  · decide
  · exact (fixed_linesBehind.line l hl).2.2
  · decide

section Text

variable {v : TemplateValues} {lines : List Item}

/-- The lines of the text: those of the template, the code in its place. -/
theorem splitOn_render_items (hne : lines ≠ [])
    (hbreak : ∀ item ∈ lines, Unbroken item.written.toList)
    (hcode : v.code = String.intercalate "\n" (lines.map Item.written)) :
    (render ⟨"nasm-x64.asm", templateText⟩ v).toList.splitOn '\n' =
      (linesBefore ++ sizeLines v ++ linesBehind).map String.toList ++
        lines.map (fun item => "    ".toList ++ item.written.toList) ++ [[]] := by
  have hbreak' : ∀ l ∈ lines.map Item.written, Unbroken l.toList := by
    intro l hl
    obtain ⟨item, hitem, rfl⟩ := List.mem_map.1 hl
    exact hbreak item hitem
  have hcodeLines : [("    %code" : String)].flatMap (linesOfLine v) =
      lines.map fun item => "    ".toList ++ item.written.toList := by
    rw [List.flatMap_singleton, linesOfLine_code (by simpa using hne) hbreak' hcode, List.map_map]
    rfl
  rw [templateText, splitOn_render feed_notMem_builtinNasm]
  show builtinNasm.flatMap (linesOfLine v) ++ [[]] = _
  rw [builtinNasm_eq, List.flatMap_append, List.flatMap_append, List.flatMap_append,
    flatMap_linesOfLine_of_fixed fixed_linesBefore, flatMap_linesOfLine_sizes,
    flatMap_linesOfLine_of_fixed fixed_linesBehind, hcodeLines, List.map_append, List.map_append]

/-- What the template says in front of the code. -/
def frame (v : TemplateValues) : List Element :=
  (linesBefore ++ sizeLines v ++ linesBehind).flatMap fun l => elementsOf l.toList

theorem labels_frame : (frame v).filterMap Element.label? = templateLabels := by
  rw [frame, List.flatMap_append, List.flatMap_append, List.filterMap_append,
    List.filterMap_append, fixed_linesBefore.labels, labels_sizeLines, fixed_linesBehind.labels]
  rfl

theorem elements_render_items (hne : lines ≠ [])
    (hitems : ∀ item ∈ lines, item ≠ .row [] ∧ Unbroken item.written.toList)
    (hcode : v.code = String.intercalate "\n" (lines.map Item.written)) :
    elements (render ⟨"nasm-x64.asm", templateText⟩ v) =
      frame v ++ lines.flatMap Item.elements := by
  have hlines := splitOn_render_items hne (fun item hitem => (hitems item hitem).2) hcode
  have hframe : ∀ l ∈ linesBefore ++ sizeLines v ++ linesBehind, '\\' ∉ l.toList := by
    intro l hl
    simp only [List.mem_append] at hl
    rcases hl with (hl | hl) | hl
    · exact (fixed_linesBefore.line l hl).2.1
    · exact (unbroken_sizeLines l hl).1
    · exact (fixed_linesBehind.line l hl).2.1
  have hbackslash : ∀ l ∈ (linesBefore ++ sizeLines v ++ linesBehind).map String.toList ++
      lines.map (fun item => "    ".toList ++ item.written.toList) ++ [[]], '\\' ∉ l := by
    intro l hl
    rcases List.mem_append.1 hl with hl | hl
    · rcases List.mem_append.1 hl with hl | hl
      · obtain ⟨s, hs, rfl⟩ := List.mem_map.1 hl
        exact hframe s hs
      · obtain ⟨item, hitem, rfl⟩ := List.mem_map.1 hl
        exact (Unbroken.append (by decide) (hitems item hitem).2).1
    · obtain rfl := List.mem_singleton.1 hl
      simp
  have hread : ∀ item ∈ lines,
      elementsOf ("    ".toList ++ item.written.toList) = item.elements := by
    intro item hitem
    have hblank : Text.Blank "    ".toList := by simp [Text.Blank]; decide
    rw [elementsOf_append hblank, elementsOf_written (hitems item hitem).1]
  rw [elements, linesOf_eq hlines hbackslash, List.flatMap_append, List.flatMap_append,
    List.flatMap_map, List.flatMap_map, List.flatMap_def (l := lines), List.map_congr_left hread,
    ← List.flatMap_def]
  exact List.append_nil _

end Text

/-- What the text of a program says: what the template says, then what its lines say. -/
theorem exists_elements_render {tree : FileTree} {o : Options} {p : Program}
    (hbuiltin : (o.templateDirectory.map fun d => Path.join d "nasm-x64.asm").filter tree.isFile =
      none)
    (hsource : ∀ s ∈ p.source, Unbroken s.toList) :
    ∃ text, Target.nasm.render tree o p = .ok text ∧
      elements text = frame (.ofOptions o (code p)) ++ (items p).flatMap Item.elements := by
  have hne : items p ≠ [] := by simp [items]
  exact ⟨_, render_eq hbuiltin, elements_render_items hne (unbroken_items hsource) rfl⟩

end Nasm

end MacroAsm
