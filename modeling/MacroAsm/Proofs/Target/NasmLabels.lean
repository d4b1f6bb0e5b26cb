import MacroAsm.Proofs.Compilation.Instructions
import MacroAsm.Proofs.Target.NasmText

set_option autoImplicit false

/-! # Labels of assembler output

The labels, the table of labels and the number of instructions are written apart from the jumps that
rely on them. They fit together for every program (`Nasm.render_linked`): each label is defined once,
the code of an instruction stands behind its label and in front of that of the next one, and whatever
refers to a label refers to one that is there. -/

namespace MacroAsm

/-- The place in the program that an instruction may go to. -/
def RomWord.target? (w : RomWord) : Option Nat :=
  match w.op with
  | .jmp | .call => some w.a.toNat
  | .jz | .jnz => some w.b.toNat
  | _ => none

namespace Assembly

/-- The entries of a table that a text begins with. -/
def entriesOf : List Element → List String
  | .operation m operands :: es => if m = "dq" then operands ++ entriesOf es else []
  | _ => []

theorem entriesOf_rows (rows : List (List String)) (e : Element) (rest : List Element)
    (he : entriesOf (e :: rest) = []) :
    entriesOf (rows.map (.operation "dq") ++ e :: rest) = rows.flatten := by
  induction rows with
  | nil => exact he
  | cons row rows ih =>
    rw [List.map_cons, List.cons_append, entriesOf, if_pos rfl, ih, List.flatten_cons]

/-- A label that is defined once is found where it stands. -/
theorem after_of_nodup {es post : List Element} {name : String} (pre : List Element)
    (h : (es.filterMap Element.label?).Nodup) (heq : es = pre ++ .label name :: post) :
    after es name = post := by
  have hpre : .label name ∉ pre := by
    intro hmem
    rw [heq, List.filterMap_append, List.filterMap_cons_some (Element.label?_label name)] at h
    have hname : name ∈ pre.filterMap Element.label? := List.mem_filterMap.2 ⟨_, hmem, rfl⟩
    exact (List.nodup_append.1 h).2.2 name hname name List.mem_cons_self rfl
  rw [heq, after_append hpre]

/-- A text that defines a label is what is in front of it, the label, and what is behind. -/
theorem exists_after {es : List Element} {name : String} (h : .label name ∈ es) :
    ∃ pre, es = pre ++ .label name :: after es name := by
  obtain ⟨pre, post, hes, hpre⟩ := List.eq_append_cons_of_mem h
  exact ⟨pre, by rw [hes, after_append hpre]⟩

end Assembly

namespace Nasm

open Assembly

/-- How a text for the assembler holds together, given the program that it was made from. -/
structure Linked (p : Program) (es : List Element) : Prop where
  /-- No global label is defined twice. -/
  nodup : (globals es).Nodup
  /-- Behind the template, whatever an instruction or the table refers to is defined. -/
  defined : ∀ e ∈ after es "mccpu_program", ∀ name ∈ e.operands,
    "mccpu_".toList <+: name.toList → .label name ∈ es
  /-- Behind the label of an instruction stands its code, then the label of the next one with what
      stands behind it, or a jump to the end. -/
  slot : ∀ {k : Nat} {w : RomWord}, p.rom[k]? = some w → ∃ rest,
    after es s!"mccpu_{k}" = (instrs w k p.rom.length).map Instr.element ++ rest ∧
      (k + 1 < p.rom.length → rest = .label s!"mccpu_{k + 1}" :: after es s!"mccpu_{k + 1}") ∧
      (p.rom.length ≤ k + 1 → rest.head? = some (.operation "jmp" ["mccpu_end"]))
  /-- The number of instructions is that of the program. -/
  romSize : (after es "ROM_SIZE").head? = some (.operation "equ" [toString p.rom.length])
  /-- The table holds the labels of all instructions in order. -/
  table : entriesOf (after es "rom_table") = (List.range p.rom.length).map fun k => s!"mccpu_{k}"
  /-- An instruction that may go to a place ends with a jump to its label, or to the end if the program
      does not reach as far. -/
  jump : ∀ {k : Nat} {w : RomWord} {t : Nat}, p.rom[k]? = some w → w.target? = some t →
    ∃ operation target,
      ((instrs w k p.rom.length).map Instr.element).getLast? = some (.operation operation [target]) ∧
      operation ∈ ["jmp", "je", "jne"] ∧ (target = s!"mccpu_{t}" ↔ t < p.rom.length) ∧
      (p.rom.length ≤ t → target = "mccpu_end")

/-! ## Rows of the table -/

theorem flatten_rows (n : Nat) : (rows n).flatten = List.range n := by
  have hbelow : ∀ m ≤ (n + 7) / 8,
      (List.range m).flatMap (fun i => List.range' (8 * i) (Nat.min 8 (n - 8 * i))) =
        List.range (min n (8 * m)) := by
    intro m
    induction m with
    | zero => simp
    | succ m ih =>
      intro hm
      have hlt : 8 * m < n := by omega
      have hleft : min n (8 * m) = 8 * m := by omega
      have hright : min n (8 * (m + 1)) = 8 * m + min 8 (n - 8 * m) := by omega
      rw [List.range_succ, List.flatMap_append, ih (by omega), List.flatMap_singleton, hleft, hright,
        List.range_eq_range', List.range_eq_range', ← List.range'_append_1, Nat.zero_add]
  have hall := hbelow ((n + 7) / 8) (Nat.le_refl _)
  have hmin : min n (8 * ((n + 7) / 8)) = n := by omega
  rw [rows, ← List.flatMap_def, hall, hmin]

/-! ## Names of instructions -/

/-- Whether a name is that of an instruction. -/
def isSlotName (name : String) : Bool :=
  "mccpu_".toList.isPrefixOf name.toList && (name.toList.drop 6).all Char.isDigit

theorem isSlotName_slot (k : Nat) : isSlotName (Label.slot k).written = true := by
  have hlist : (Label.slot k).written.toList = "mccpu_".toList ++ (toString k).toList := by
    rw [written_slot, String.toList_append]
  have hbegins : "mccpu_".toList.isPrefixOf (Label.slot k).written.toList = true :=
    List.isPrefixOf_iff_prefix.2 ⟨_, hlist.symm⟩
  have hdrop : (Label.slot k).written.toList.drop 6 = (toString k).toList := by
    rw [hlist, List.drop_append_of_le_length (by decide)]
    rfl
  rw [isSlotName, hbegins, hdrop, Bool.true_and, List.all_eq_true]
  exact fun c hc => isDigit_of_mem_toString hc

/-! ## What instructions refer to -/

/-- The label that an instruction refers to. -/
def Instr.label? : Instr → Option Label
  | .jump _ l => some l
  | .call l => some l
  | _ => none

/-- Whether a label is defined in the text of a program of `n` instructions. -/
def Label.Defined (n : Nat) : Label → Prop
  | .slot k => k < n
  | _ => True

theorem defined_target (t n : Nat) : (target t n).Defined n := by
  unfold target
  split
  · assumption
  · trivial

theorem defined_routine (n : Nat) : Label.finish.Defined n ∧ Label.push.Defined n ∧
    Label.pop.Defined n ∧ Label.dispatch.Defined n ∧ Label.out.Defined n :=
  ⟨trivial, trivial, trivial, trivial, trivial⟩

/-- Instructions refer to nothing that is not there. -/
theorem defined_label (w : RomWord) (k n : Nat) :
    ∀ i ∈ instrs w k n, ∀ l ∈ i.label?, l.Defined n := by
  obtain ⟨op, a, b⟩ := w
  cases op <;>
    simp [instrs, throughAl, point, pushByte, Instr.label?, defined_routine, defined_target]

/-- An instruction that may go to a place does so with its last jump. -/
theorem getLast?_instrs {w : RomWord} {t : Nat} (h : w.target? = some t) (k n : Nat) :
    ∃ c, (instrs w k n).getLast? = some (.jump c (target t n)) := by
  obtain ⟨op, a, b⟩ := w
  cases op with
  | jmp =>
    obtain rfl := Option.some.inj h
    exact ⟨.always, rfl⟩
  | jz =>
    obtain rfl := Option.some.inj h
    exact ⟨.equal, rfl⟩
  | jnz =>
    obtain rfl := Option.some.inj h
    exact ⟨.notEqual, rfl⟩
  | call =>
    obtain rfl := Option.some.inj h
    exact ⟨.always, rfl⟩
  | _ => simp [RomWord.target?] at h

theorem written_target (t n : Nat) : ((target t n).written = s!"mccpu_{t}" ↔ t < n) ∧
    (n ≤ t → (target t n).written = "mccpu_end") := by
  unfold target
  split
  · next h => exact ⟨⟨fun _ => h, fun _ => rfl⟩, fun hle => by omega⟩
  · next h =>
    refine ⟨⟨?_, fun hlt => absurd hlt h⟩, fun _ => rfl⟩
    intro heq
    have hslot : isSlotName Label.finish.written = true := heq ▸ isSlotName_slot t
    exact absurd hslot (by decide +kernel)

theorem not_prefix_arg (a : Arg) : ¬ "mccpu_".toList <+: a.written.toList := by
  have hhead {s : String} {c : Char} (h : s.toList.head? = some c) (hc : c ≠ 'm') :
      ¬ "mccpu_".toList <+: s.toList := by
    rintro ⟨rest, hrest⟩
    rw [← hrest] at h
    exact hc (Option.some.inj h).symm
  have hcell (c : Cell) : c.written.toList.head? = some '[' := by
    cases c with
    | register i =>
      show ("[registers + " ++ toString i ++ "]").toList.head? = _
      simp
    | memory i =>
      show ("[memory + " ++ toString i ++ "]").toList.head? = _
      simp
    | indexed => rfl
  cases a with
  | reg r => cases r <;> decide
  | cell c => exact hhead (hcell c) (by decide)
  | byteCell c =>
    have hbyte : (Arg.byteCell c).written.toList.head? = some 'b' := by
      show ("byte " ++ c.written).toList.head? = _
      simp
    exact hhead hbyte (by decide)
  | num n =>
    obtain ⟨d, ds, hds⟩ := List.exists_cons_of_ne_nil (isOperand_toString n).nonempty
    have hdigit : d.isDigit = true := isDigit_of_mem_toString (hds ▸ List.mem_cons_self)
    refine hhead (c := d) (by rw [Arg.written, hds]; rfl) ?_
    rintro rfl
    exact absurd hdigit (by decide)
  | memorySize => decide
  | memoryBase => decide

/-- What an instruction works on is a label if it begins like one. -/
theorem exists_label_of_mem_operands {i : Instr} {name : String} (h : name ∈ i.operands)
    (hbegins : "mccpu_".toList <+: name.toList) : ∃ l ∈ i.label?, l.written = name := by
  cases i with
  | nop => simp [Instr.operands] at h
  | unary op a =>
    obtain rfl := List.mem_singleton.1 h
    exact absurd hbegins (not_prefix_arg a)
  | binary op a b =>
    rcases List.mem_cons.1 h with rfl | h
    · exact absurd hbegins (not_prefix_arg a)
    · obtain rfl := List.mem_singleton.1 h
      exact absurd hbegins (not_prefix_arg b)
  | jump c l =>
    obtain rfl := List.mem_singleton.1 h
    exact ⟨l, rfl, rfl⟩
  | call l =>
    obtain rfl := List.mem_singleton.1 h
    exact ⟨l, rfl, rfl⟩

/-! ## The code of a program -/

section Code

variable {p : Program}

/-- What the lines of an instruction say. -/
def slotElements (n : Nat) (item : RomWord × Nat) : List Element :=
  .label (Label.slot item.2).written :: (instrs item.1 item.2 n).map Instr.element

/-- What is said behind the instructions. -/
def closing (n : Nat) : List Element :=
  [.operation "jmp" ["mccpu_end"], .label "ROM_SIZE", .operation "equ" [toString n],
    .operation "section" [".data"], .label "rom_table"] ++
    (rows n).map (fun row => .operation "dq" (row.map fun k => (Label.slot k).written)) ++
    [.operation "section" [".text"]]

/-- What is said from an instruction on. -/
def elementsFrom (rom : List RomWord) (k : Nat) : List Element :=
  ((rom.drop k).zipIdx k).flatMap (slotElements rom.length) ++ closing rom.length

theorem flatMap_elements (p : Program) :
    (items p).flatMap Item.elements = elementsFrom p.rom 0 := by
  have hslot (x : RomWord × Nat) :
      (slotItems p.source.toArray p.rom.length x).flatMap Item.elements =
        slotElements p.rom.length x := by
    have hinstrs (is : List Instr) : (is.map Item.instr).flatMap Item.elements =
        is.map Instr.element := by
      rw [List.flatMap_map, List.map_eq_flatMap]
      rfl
    rw [slotItems, List.flatMap_cons, hinstrs]
    rfl
  have hrows : ((rows p.rom.length).map Item.row).flatMap Item.elements =
      (rows p.rom.length).map fun row =>
        .operation "dq" (row.map fun k => (Label.slot k).written) := by
    rw [List.flatMap_map, List.map_eq_flatMap]
    rfl
  have hjump : (Instr.jump .always .finish).element = .operation "jmp" ["mccpu_end"] :=
    element_eq _
  simp only [items, List.flatMap_append, List.flatMap_assoc, hslot, hrows]
  simp [elementsFrom, closing, Item.elements, hjump, Section.name]

theorem elementsFrom_of_getElem? {rom : List RomWord} {k : Nat} {w : RomWord}
    (h : rom[k]? = some w) :
    elementsFrom rom k = slotElements rom.length (w, k) ++ elementsFrom rom (k + 1) := by
  obtain ⟨hk, hw⟩ := List.getElem?_eq_some_iff.1 h
  rw [elementsFrom, List.drop_eq_getElem_cons hk, hw, List.zipIdx_cons, List.flatMap_cons,
    List.append_assoc]
  rfl

theorem elementsFrom_of_le {rom : List RomWord} {k : Nat} (h : rom.length ≤ k) :
    elementsFrom rom k = closing rom.length := by
  rw [elementsFrom, List.drop_eq_nil_of_le h]
  rfl

/-- What is said from the start ends with what is said from an instruction on. -/
theorem exists_elementsFrom (rom : List RomWord) {k : Nat} (hk : k ≤ rom.length) :
    ∃ pre, elementsFrom rom 0 = pre ++ elementsFrom rom k := by
  induction k with
  | zero => exact ⟨[], rfl⟩
  | succ k ih =>
    obtain ⟨pre, hpre⟩ := ih (by omega)
    have hget : rom[k]? = some rom[k] := List.getElem?_eq_getElem (by omega)
    rw [elementsFrom_of_getElem? hget] at hpre
    exact ⟨_, by rw [hpre, List.append_assoc]⟩

/-! ## Names of the code -/

theorem labels_slotElements (rom : List RomWord) (n k : Nat) :
    ((rom.zipIdx k).flatMap (slotElements n)).filterMap Element.label? =
      (List.range' k rom.length).map fun j => (Label.slot j).written := by
  have hinstrs (is : List Instr) : (is.map Instr.element).filterMap Element.label? = [] := by
    simp [Instr.element]
  have hslot (x : RomWord × Nat) : (slotElements n x).filterMap Element.label? =
      [(Label.slot x.2).written] := by
    rw [slotElements, List.filterMap_cons_some (Element.label?_label _), hinstrs]
  rw [List.filterMap_flatMap, ← List.zipIdx_map_snd, List.map_map, List.map_eq_flatMap]
  exact congrArg List.flatten (List.map_congr_left fun x _ => hslot x)

theorem labels_closing (n : Nat) :
    (closing n).filterMap Element.label? = ["ROM_SIZE", "rom_table"] := by
  simp [closing, List.filterMap_cons]

theorem labels_elementsFrom (rom : List RomWord) :
    (elementsFrom rom 0).filterMap Element.label? =
      (List.range rom.length).map (fun k => (Label.slot k).written) ++ ["ROM_SIZE", "rom_table"] := by
  rw [elementsFrom, List.drop_zero, List.filterMap_append, labels_slotElements, labels_closing,
    List.range_eq_range']

end Code

/-! ## The whole text -/

section Whole

variable {p : Program} {es front : List Element}

/-- The labels of instructions are different from each other and from names that are none. -/
theorem nodup_slots {before behind : List String} {n : Nat}
    (hother : ∀ name ∈ before ++ behind, isSlotName name = false)
    (hnodup : (before ++ behind).Nodup) :
    (before ++ ((List.range n).map (fun k => (Label.slot k).written) ++ behind)).Nodup := by
  have hslot {name : String} (h : name ∈ (List.range n).map fun k => (Label.slot k).written) :
      isSlotName name = true := by
    obtain ⟨k, -, rfl⟩ := List.mem_map.1 h
    exact isSlotName_slot k
  have hslots : ((List.range n).map fun k => (Label.slot k).written).Nodup :=
    List.pairwise_map.2 (List.nodup_range.imp fun hne h => hne (slot_inj h))
  obtain ⟨hbefore, hbehind, hdisjoint⟩ := List.nodup_append.1 hnodup
  rw [List.nodup_append, List.nodup_append]
  refine ⟨hbefore, ⟨hslots, hbehind, ?_⟩, ?_⟩
  · rintro name hname _ hrest rfl
    have hfalse := hother name (List.mem_append_right _ hrest)
    rw [hslot hname] at hfalse
    simp at hfalse
  · rintro name hname _ hrest rfl
    rcases List.mem_append.1 hrest with hrest | hrest
    · have hfalse := hother name (List.mem_append_left _ hname)
      rw [hslot hrest] at hfalse
      simp at hfalse
    · exact hdisjoint name hname name hrest rfl

theorem nodup_labels (hfront : front.filterMap Element.label? = templateLabels)
    (hes : es = front ++ elementsFrom p.rom 0) : (es.filterMap Element.label?).Nodup := by
  rw [hes, List.filterMap_append, hfront, labels_elementsFrom]
  exact nodup_slots (by decide +kernel) (by decide)

/-- What stands behind the label of an instruction. -/
theorem after_slot (hfront : front.filterMap Element.label? = templateLabels)
    (hes : es = front ++ elementsFrom p.rom 0) {k : Nat} {w : RomWord} (h : p.rom[k]? = some w) :
    after es (Label.slot k).written =
      (instrs w k p.rom.length).map Instr.element ++ elementsFrom p.rom (k + 1) := by
  obtain ⟨hk, -⟩ := List.getElem?_eq_some_iff.1 h
  obtain ⟨pre, hpre⟩ := exists_elementsFrom p.rom (Nat.le_of_lt hk)
  refine after_of_nodup (front ++ pre) (nodup_labels hfront hes) ?_
  rw [hes, hpre, elementsFrom_of_getElem? h, slotElements, List.append_assoc, List.cons_append]

theorem mem_labels (hfront : front.filterMap Element.label? = templateLabels)
    (hes : es = front ++ elementsFrom p.rom 0) {l : Label} (hl : l.Defined p.rom.length) :
    .label l.written ∈ es := by
  have hname : l.written ∈ es.filterMap Element.label? := by
    rw [hes, List.filterMap_append, hfront, labels_elementsFrom]
    cases l with
    | slot k =>
      refine List.mem_append_right _ (List.mem_append_left _ (List.mem_map.2 ⟨k, ?_, rfl⟩))
      exact List.mem_range.2 hl
    | finish => exact List.mem_append_left _ (by decide)
    | push => exact List.mem_append_left _ (by decide)
    | pop => exact List.mem_append_left _ (by decide)
    | dispatch => exact List.mem_append_left _ (by decide)
    | out => exact List.mem_append_left _ (by decide)
  obtain ⟨e, he, hlabel⟩ := List.mem_filterMap.1 hname
  cases e with
  | label name =>
    obtain rfl := Option.some.inj hlabel
    exact he
  | operation m operands => simp at hlabel

/-- Whatever the code refers to is a label of the text. -/
theorem exists_defined_of_mem {e : Element} (he : e ∈ elementsFrom p.rom 0) {name : String}
    (hname : name ∈ e.operands) (hbegins : "mccpu_".toList <+: name.toList) :
    ∃ l : Label, l.Defined p.rom.length ∧ l.written = name := by
  rcases List.mem_append.1 he with he | he
  · obtain ⟨x, -, hx⟩ := List.mem_flatMap.1 he
    rcases List.mem_cons.1 hx with rfl | hx
    · simp [Element.operands] at hname
    · obtain ⟨i, hi, rfl⟩ := List.mem_map.1 hx
      rw [element_eq] at hname
      obtain ⟨l, hl, hwritten⟩ := exists_label_of_mem_operands hname hbegins
      exact ⟨l, defined_label _ _ _ i hi l hl, hwritten⟩
  · have hdigits : ¬ "mccpu_".toList <+: (toString p.rom.length).toList := not_prefix_arg (.num _)
    simp only [closing, List.mem_append, List.mem_cons, List.not_mem_nil, or_false, List.mem_map]
      at he
    rcases he with ((rfl | rfl | rfl | rfl | rfl) | ⟨row, hrow, rfl⟩) | rfl
    · obtain rfl := List.mem_singleton.1 hname
      exact ⟨.finish, trivial, rfl⟩
    · simp [Element.operands] at hname
    · obtain rfl := List.mem_singleton.1 hname
      exact absurd hbegins hdigits
    · obtain rfl := List.mem_singleton.1 hname
      exact absurd hbegins (by decide)
    · simp [Element.operands] at hname
    · obtain ⟨k, hk, rfl⟩ := List.mem_map.1 hname
      have hmem : k ∈ List.range p.rom.length := by
        rw [← flatten_rows]
        exact List.mem_flatten.2 ⟨row, hrow, hk⟩
      exact ⟨.slot k, List.mem_range.1 hmem, rfl⟩
    · obtain rfl := List.mem_singleton.1 hname
      exact absurd hbegins (by decide)

/-- Behind the code stand the number of instructions and the table of their labels. -/
theorem exists_eq_append_closing (hes : es = front ++ elementsFrom p.rom 0) :
    ∃ pre, es = pre ++ closing p.rom.length := by
  obtain ⟨pre, hpre⟩ := exists_elementsFrom p.rom (Nat.le_refl p.rom.length)
  rw [elementsFrom_of_le (Nat.le_refl _)] at hpre
  exact ⟨front ++ pre, by rw [hes, hpre, List.append_assoc]⟩

/-- What stands behind the label of the number of instructions. -/
theorem after_romSize (hfront : front.filterMap Element.label? = templateLabels)
    (hes : es = front ++ elementsFrom p.rom 0) :
    .label "ROM_SIZE" ∈ es ∧ ∃ rest,
      after es "ROM_SIZE" = .operation "equ" [toString p.rom.length] :: rest := by
  obtain ⟨pre, hpre⟩ := exists_eq_append_closing hes
  have hclosing : closing p.rom.length = [.operation "jmp" ["mccpu_end"]] ++
      .label "ROM_SIZE" :: .operation "equ" [toString p.rom.length] ::
        (closing p.rom.length).drop 3 := rfl
  rw [hclosing, ← List.append_assoc] at hpre
  refine ⟨?_, _, after_of_nodup _ (nodup_labels hfront hes) hpre⟩
  rw [hpre]
  exact List.mem_append_right _ List.mem_cons_self

/-- The rows of the table. -/
def tableRows (n : Nat) : List (List String) :=
  (rows n).map fun row => row.map fun k => (Label.slot k).written

theorem flatten_tableRows (n : Nat) :
    (tableRows n).flatten = (List.range n).map fun k => (Label.slot k).written := by
  rw [tableRows, ← List.map_flatten, flatten_rows]

/-- What stands behind the label of the table. -/
theorem after_romTable (hfront : front.filterMap Element.label? = templateLabels)
    (hes : es = front ++ elementsFrom p.rom 0) : after es "rom_table" =
      (tableRows p.rom.length).map (.operation "dq") ++ [.operation "section" [".text"]] := by
  obtain ⟨pre, hpre⟩ := exists_eq_append_closing hes
  refine after_of_nodup (pre ++ (closing p.rom.length).take 4) (nodup_labels hfront hes) ?_
  rw [hpre]
  simp [closing, tableRows]

/-- The text holds together. -/
theorem linked_elements (hfront : front.filterMap Element.label? = templateLabels)
    (hlast : ∃ before, front = before ++ [.label "mccpu_program"])
    (hes : es = front ++ elementsFrom p.rom 0) : Linked p es where
  nodup := (nodup_labels hfront hes).filter _
  defined := by
    obtain ⟨before, hbefore⟩ := hlast
    have hafter : after es "mccpu_program" = elementsFrom p.rom 0 := by
      refine after_of_nodup before (nodup_labels hfront hes) ?_
      rw [hes, hbefore, List.append_assoc, List.singleton_append]
    intro e he name hname hbegins
    rw [hafter] at he
    obtain ⟨l, hl, rfl⟩ := exists_defined_of_mem he hname hbegins
    exact mem_labels hfront hes hl
  slot := by
    intro k w hw
    refine ⟨_, after_slot hfront hes hw, ?_, ?_⟩
    · intro hk
      have hnext : p.rom[k + 1]? = some p.rom[k + 1] := List.getElem?_eq_getElem hk
      rw [elementsFrom_of_getElem? hnext]
      exact congrArg _ (after_slot hfront hes hnext).symm
    · intro hk
      rw [elementsFrom_of_le hk]
      rfl
  romSize := by
    obtain ⟨-, rest, hafter⟩ := after_romSize hfront hes
    rw [hafter]
    rfl
  table := by
    rw [after_romTable hfront hes, entriesOf_rows _ _ _ (by simp [entriesOf]), flatten_tableRows]
    rfl
  jump := by
    intro k w t _ ht
    obtain ⟨c, hc⟩ := getLast?_instrs ht k p.rom.length
    have hcondition : c.written ∈ ["jmp", "je", "jne"] := by
      cases c <;> decide
    refine ⟨c.written, (target t p.rom.length).written, ?_, hcondition,
      (written_target t p.rom.length).1, (written_target t p.rom.length).2⟩
    rw [List.getLast?_map, hc, Option.map_some, element_eq]
    rfl

end Whole

theorem frame_eq_append (v : TemplateValues) :
    ∃ before, frame v = before ++ [.label "mccpu_program"] := by
  have hbehind : linesBehind = linesBehind.dropLast ++ ["mccpu_program:"] := rfl
  have hline : elementsOf "mccpu_program:".toList = [.label "mccpu_program"] := by decide +kernel
  refine ⟨(linesBefore ++ sizeLines v ++ linesBehind.dropLast).flatMap
    fun l => elementsOf l.toList, ?_⟩
  rw [frame, hbehind, ← List.append_assoc, List.flatMap_append, List.flatMap_singleton, hline,
    ← hbehind]

/-- **Labels, table and jumps fit together.** With the built-in template, every program that a
    compilation makes is written as a text that holds together. -/
theorem render_linked {t tree : FileTree} {path : String} {main : List Line} {o : Options}
    {c : Compilation} {p : Program} (h : Compilation.ofLines t path main o = .ok c)
    (hp : c.program = some p)
    (hbuiltin : (o.templateDirectory.map fun d => Path.join d "nasm-x64.asm").filter tree.isFile =
      none) :
    ∃ text, Target.nasm.render tree o p = .ok text ∧ Linked p (elements text) := by
  obtain ⟨xs, hstands⟩ := Compilation.program_stands h hp
  have hsource : ∀ s ∈ p.source, Unbroken s.toList := by
    intro s hs
    refine ⟨fun hc => ?_, fun hc => ?_⟩
    · exact absurd (hstands.isCodeChar_of_mem_source hs hc) (by decide)
    · exact absurd (hstands.isCodeChar_of_mem_source hs hc) (by decide)
  obtain ⟨text, htext, helements⟩ := exists_elements_render hbuiltin hsource
  rw [flatMap_elements] at helements
  exact ⟨text, htext, linked_elements labels_frame (frame_eq_append _) helements⟩

/-- A call, and a jump behind the last instruction. -/
def callAndSkip : List Line :=
  Line.ofText "main" "call sub\njz &r1, done\nsub: // back\nret\ndone:"

theorem callAndSkip_linked :
    ∃ c p text, Compilation.ofLines ⟨[], []⟩ "main" callAndSkip .default = .ok c ∧
      c.program = some p ∧ p.rom = [⟨.call, 2, 0⟩, ⟨.jz, 1, 3⟩, ⟨.ret, 0, 0⟩] ∧
      Target.nasm.render ⟨[], []⟩ .default p = .ok text ∧ Linked p (elements text) := by
  have hfacts : Includes.requests "main" callAndSkip = [] ∧
      (Compilation.fullReport .default callAndSkip []
        (.ofList (callAndSkip.filterMap Compilation.directiveMessage?) ++ .empty)).hasError = false ∧
      (Compilation.linked .default callAndSkip []).1.rom =
        [⟨.call, 2, 0⟩, ⟨.jz, 1, 3⟩, ⟨.ret, 0, 0⟩] := by
    decide +kernel
  obtain ⟨hrequests, he, hrom⟩ := hfacts
  obtain ⟨c, h, hp⟩ :=
    Compilation.ofLines_eq_ok_of_requests ⟨[], []⟩ (by decide +kernel) hrequests (.inl rfl) he
  obtain ⟨text, htext, hlinked⟩ := render_linked h hp rfl
  exact ⟨c, _, text, h, hp, hrom, htext, hlinked⟩

end Nasm

end MacroAsm
