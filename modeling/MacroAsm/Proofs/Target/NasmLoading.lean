import MacroAsm.Proofs.Target.NasmTemplate
import MacroAsm.Proofs.X86.Loading

set_option autoImplicit false

/-! # Loading the text of a program

The text of every program can be put into memory, so that the processor holds the machine before its
first step (`Nasm.exists_loaded`). -/

namespace MacroAsm

namespace Nasm

open Assembly X86 X86.Loading

open CFamily (Bank)

/-! ## Size -/

theorem length_instrs (w : RomWord) (k n : Nat) : (instrs w k n).length ≤ 7 := by
  obtain ⟨op, a, b⟩ := w
  cases op <;> simp [instrs, throughAl, point, pushByte]

theorem instrs_ne_nil (w : RomWord) (k n : Nat) : instrs w k n ≠ [] := by
  obtain ⟨op, a, b⟩ := w
  cases op <;> simp [instrs, throughAl, point, pushByte]

theorem length_slots (rom : List RomWord) (k n : Nat) :
    ((rom.zipIdx k).flatMap (slotElements n)).length ≤ 8 * rom.length := by
  induction rom generalizing k with
  | nil => exact Nat.le_refl 0
  | cons w rom ih =>
    have hslot : (instrs (w, k).1 (w, k).2 n).length ≤ 7 := length_instrs w k n
    have hrest := ih (k + 1)
    rw [List.zipIdx_cons, List.flatMap_cons, List.length_append, List.length_cons, slotElements,
      List.length_cons, List.length_map]
    omega

theorem length_elementsFrom (rom : List RomWord) :
    (elementsFrom rom 0).length ≤ 9 * rom.length + 7 := by
  have hslots := length_slots rom 0 rom.length
  rw [elementsFrom, List.drop_zero, List.length_append]
  simp only [closing, rows, List.length_append, List.length_cons, List.length_nil, List.length_map,
    List.length_range]
  omega

/-! ## Numbers -/

theorem isClosed_of_notMem {m : String} (h : m ∉ directives) (args : List String) :
    isClosed (.operation m args) = true := by
  unfold isClosed
  split
  · next heq =>
    cases heq
    exact absurd (by decide) h
  · next heq =>
    cases heq
    exact absurd (by decide) h
  · rfl

theorem isClosed_define {name : String} (hname : IsName name) (n : Nat) :
    isClosed (.operation "%define" [name ++ " " ++ toString n]) = true := by
  rw [isClosed, (Image.cut_define hname n).2, number?_toString]
  rfl

theorem isClosed_elementsFrom (rom : List RomWord) : ∀ e ∈ elementsFrom rom 0, isClosed e = true := by
  intro e he
  rcases List.mem_append.1 he with he | he
  · obtain ⟨x, -, hx⟩ := List.mem_flatMap.1 he
    rcases List.mem_cons.1 hx with rfl | hx
    · rfl
    · obtain ⟨i, -, rfl⟩ := List.mem_map.1 hx
      rw [element_eq]
      exact isClosed_of_notMem (mnemonic_notMem_directives i) _
  · simp only [closing, List.mem_append, List.mem_cons, List.not_mem_nil, or_false, List.mem_map]
      at he
    rcases he with ((rfl | rfl | rfl | rfl | rfl) | ⟨row, -, rfl⟩) | rfl
    · rfl
    · rfl
    · rw [isClosed, number?_toString]
      rfl
    · rfl
    · rfl
    · rfl
    · rfl

/-! ## Names -/

theorem replaced?_of_ne {m : String} (h : m ≠ "%define") (args : List String) :
    blank.replaced? m args = none := by
  unfold Image.replaced?
  split
  · exact absurd rfl h
  · rfl

theorem ne_define_of_mem {rom : List RomWord} {m : String} {args : List String}
    (h : .operation m args ∈ elementsFrom rom 0) : m ≠ "%define" := by
  rintro rfl
  rcases List.mem_append.1 h with h | h
  · obtain ⟨x, -, hx⟩ := List.mem_flatMap.1 h
    rcases List.mem_cons.1 hx with hx | hx
    · cases hx
    · obtain ⟨i, -, hi⟩ := List.mem_map.1 hx
      have hmnemonic := mnemonic_notMem_directives i
      rw [element_eq] at hi
      rw [(Element.operation.inj hi).1] at hmnemonic
      exact hmnemonic (by decide)
  · simp [closing] at h

theorem names_elementsFrom (scope : String) (rom : List RomWord) :
    names scope (elementsFrom rom 0) =
      (List.range rom.length).map (fun k => (Label.slot k).written) ++ ["ROM_SIZE", "rom_table"] := by
  rw [← labels_elementsFrom]
  refine names_eq_labels (fun name hname => ?_) fun m args hm =>
    replaced?_of_ne (ne_define_of_mem hm) args
  have hlabel : name ∈ (elementsFrom rom 0).filterMap Element.label? :=
    List.mem_filterMap.2 ⟨_, hname, rfl⟩
  rw [labels_elementsFrom] at hlabel
  rcases List.mem_append.1 hlabel with hlabel | hlabel
  · obtain ⟨k, -, rfl⟩ := List.mem_map.1 hlabel
    rw [written_slot, String.toList_append]
    simp
  · have hglobal : ∀ name ∈ ["ROM_SIZE", "rom_table"], name.toList.head? ≠ some '.' := by decide
    exact hglobal name hlabel

section Framed

variable {o : Options} {p : Program} {es : List Element}

/-- The names of the template. -/
def templateNames : List String :=
  ["MEMORY_SIZE", "STACK_SIZE", "REGISTER_COUNT", "memory", "stack", "registers", "out_fmt", "main",
    "mccpu_end", "mccpu_dispatch", "mccpu_push", "mccpu_push.done", "mccpu_pop", "mccpu_pop.dec",
    "mccpu_out", "mccpu_program"]

theorem names_frame (v : TemplateValues) : names "" (frame v) = templateNames := by
  have hmemory : IsName "MEMORY_SIZE" := by decide
  have hstack : IsName "STACK_SIZE" := by decide
  have hregisters : IsName "REGISTER_COUNT" := by decide
  have hsizes : names "" (sizeElements v) = ["MEMORY_SIZE", "STACK_SIZE", "REGISTER_COUNT"] := by
    rw [sizeElements, names, Image.replaced?_define hmemory, names, Image.replaced?_define hstack,
      names, Image.replaced?_define hregisters]
    rfl
  have htemplate : names "" templateElements = templateNames.drop 3 := by decide +kernel
  have hscope : scopeBehind "" (sizeElements v) = "" := rfl
  rw [frame_eq, names_append, hscope, hsizes, htemplate]
  rfl

/-- No name stands for two things. -/
theorem nodup_names (hframed : Framed o p es) : (names "" es).Nodup := by
  rw [hframed, names_append, names_frame, names_elementsFrom]
  exact nodup_slots (by decide +kernel) (by decide)

/-! ## Extents -/

/-- Whether an element is an operation that is no directive. -/
def isCode : Element → Bool
  | .label _ => false
  | .operation m _ => decide (m ∉ directives)

theorem isCode_element (i : Instr) : isCode i.element = true := by
  rw [element_eq]
  exact decide_eq_true (mnemonic_notMem_directives i)

variable {im : Image}

theorem extent_of_isCode {e : Element} (he : isCode e = true) (rest : List Element) :
    im.extent (e :: rest) = 0 := by
  cases e with
  | label name => rfl
  | operation m args =>
    have hm : m ∉ directives := of_decide_eq_true he
    have hdatum : im.datum? (.operation m args) = none := by
      unfold Image.datum?
      split
      · next heq =>
        cases heq
        exact absurd (by decide) hm
      · next heq =>
        cases heq
        exact absurd (by decide) hm
      · next heq =>
        cases heq
        exact absurd (by decide) hm
      · rfl
    rw [Image.extent, hdatum]

theorem extent_elementsFrom (rom : List RomWord) : im.extent (elementsFrom rom 0) = 0 := by
  cases rom with
  | nil => rfl
  | cons w rom => rfl

/-- Only behind the labels of data are there any. -/
theorem extent_eq_zero (hframed : Framed o p es) {x : String} (hx : .label x ∈ es)
    (hdata : x ∉ dataNames) : im.extent (after es x) = 0 := by
  have hlabel : x ∈ es.filterMap Element.label? := List.mem_filterMap.2 ⟨_, hx, rfl⟩
  rw [hframed, List.filterMap_append, labels_frame, labels_elementsFrom] at hlabel
  rcases List.mem_append.1 hlabel with hlabel | hlabel
  · have htemplate : ∀ x ∈ templateLabels, .label x ∈ templateElements ∧
        (x ∉ dataNames → x = "mccpu_program" ∨ (after templateElements x).head?.any isCode) := by
      decide +kernel
    obtain ⟨hmem, hcode⟩ := htemplate x hlabel
    rw [hframed.after_template hmem]
    rcases hcode hdata with rfl | hcode
    · exact extent_elementsFrom p.rom
    · cases hafter : after templateElements x with
      | nil => simp [hafter] at hcode
      | cons e rest =>
        rw [hafter] at hcode
        exact extent_of_isCode hcode _
  · rcases List.mem_append.1 hlabel with hlabel | hlabel
    · obtain ⟨k, hk, rfl⟩ := List.mem_map.1 hlabel
      have hlt : k < p.rom.length := List.mem_range.1 hk
      obtain ⟨i, is, his⟩ := List.exists_cons_of_ne_nil (instrs_ne_nil p.rom[k] k p.rom.length)
      rw [after_slot labels_frame hframed (List.getElem?_eq_getElem hlt), his, List.map_cons]
      exact extent_of_isCode (isCode_element i) _
    · rcases List.mem_cons.1 hlabel with rfl | hlabel
      · obtain ⟨-, rest, hafter⟩ := hframed.after_romSize
        rw [hafter]
        rfl
      · obtain rfl := List.mem_singleton.1 hlabel
        exact absurd (by decide) hdata

theorem extent_table (hframed : Framed o p es) :
    im.extent (after es "rom_table") = 8 * p.rom.length := by
  rw [hframed.after_table, Image.extent_words, flatten_tableRows, List.length_map, List.length_range]
  rfl

/-- The data behind a label are not many. -/
theorem extent_le (hframed : Framed o p es) (ho : o.Valid) (hlength : p.rom.length ≤ 65535) {a : Word}
    (hlaid : im.Laid "" es a) {x : String} (hx : .label x ∈ es) :
    im.extent (after es x) ≤ 1048576 := by
  by_cases hdata : x ∈ dataNames
  · have hbank (b : Bank) : im.extent (after es b.written) ≤ 1048576 := by
      have hsize := ho.bankSize_le b
      rw [extent_bank hframed ho hlaid]
      omega
    simp only [dataNames, List.mem_cons, List.not_mem_nil, or_false] at hdata
    rcases hdata with rfl | rfl | rfl | rfl | rfl
    · exact hbank .registers
    · exact hbank .memory
    · exact hbank .stack
    · have hformat : im.extent (after es "out_fmt") = 4 := by
        rw [hframed.after_template (by decide)]
        rfl
      omega
    · rw [extent_table hframed]
      omega
  · rw [extent_eq_zero hframed hx hdata]
    exact Nat.zero_le _

/-- The text of a program can be put into memory. -/
theorem loadable (hframed : Framed o p es) (ho : o.Valid) (hlength : p.rom.length ≤ 65535)
    (linked : String → State → State) : Loadable es linked := by
  have hsize : es.length < 2 ^ 40 := by
    have hcode := length_elementsFrom p.rom
    have htemplate : templateElements.length ≤ 100 := by decide
    rw [hframed, frame_eq]
    simp only [List.length_append, sizeElements, List.length_cons, List.length_nil]
    omega
  have hclosed : ∀ e ∈ es, isClosed e = true := by
    rw [hframed, frame_eq]
    intro e he
    rcases List.mem_append.1 he with he | he
    · rcases List.mem_append.1 he with he | he
      · simp only [sizeElements, List.mem_cons, List.not_mem_nil, or_false] at he
        rcases he with rfl | rfl | rfl
        · exact isClosed_define (by decide) _
        · exact isClosed_define (by decide) _
        · exact isClosed_define (by decide) _
      · have htemplate : ∀ e ∈ templateElements, isClosed e = true := by decide +kernel
        exact htemplate e he
    · exact isClosed_elementsFrom p.rom e he
  have hnames := nodup_names hframed
  have hlaid : (image es linked).Laid "" es (spot 0) := laid_image (by omega) hclosed hnames
  refine ⟨hsize, hclosed, hnames, extent_le hframed ho hlength hlaid, fun {x} hx hdata => ?_⟩
  have hglobal : ∀ x ∈ dataNames, x.toList.head? ≠ some '.' := by decide
  refine hglobal x (not_not.1 fun hx' => hdata (extent_eq_zero hframed hx hx'))

/-! ## Contents -/

/-- The bytes behind a label for data, while a machine is held. -/
def content (im : Image) (m : Bytes o) (name : String) (i : Nat) : UInt8 :=
  if name = "registers" then m.byte i .registers
  else if name = "memory" then m.byte i .memory
  else if name = "stack" then m.byte i .stack
  else if name = "out_fmt" then [37, 100, 10, 0][i]?.getD 0
  else UInt8.ofNat ((im.symbol (Label.slot (i / 8)).written).toNat / 256 ^ (i % 8))

/-- The data at an address. -/
def dataAt? (im : Image) (es : List Element) (a : Word) : Option String :=
  dataNames.find? fun x => decide (distance (im.symbol x) a < im.extent (after es x))

/-- A memory that holds the data and the bytes of a machine. -/
def contents (im : Image) (es : List Element) (m : Bytes o) : Memory := fun a =>
  match dataAt? im es a with
  | some x => content im m x (distance (im.symbol x) a)
  | none => 0

variable {stack : Region} {n : Nat} {m : Bytes o}

theorem dataAt?_eq_some (hp : Placed im es stack o n) {x : String} (hx : x ∈ dataNames) {a : Word}
    (ha : (im.object es x).Has a) : dataAt? im es a = some x := by
  have hfound : (dataAt? im es a).isSome :=
    List.find?_isSome.2 ⟨x, hx, decide_eq_true ha⟩
  obtain ⟨y, hy⟩ := Option.isSome_iff_exists.1 hfound
  have hhas : distance (im.symbol y) a < im.extent (after es y) := of_decide_eq_true
    (List.find?_some (p := fun x => decide (distance (im.symbol x) a < im.extent (after es x))) hy)
  have hyx : y = x := by
    by_contra hne
    exact hp.apart (List.mem_of_find?_eq_some hy) hx hne a hhas ha
  rw [hy, hyx]

theorem contents_offset (hp : Placed im es stack o n) {x : String} (hx : x ∈ dataNames) {i : Nat}
    (hi : i < im.extent (after es x)) (hsize : im.extent (after es x) ≤ 1048576) :
    contents im es m (offset (im.symbol x) i) = content im m x i := by
  have hfound : dataAt? im es (offset (im.symbol x) i) = some x :=
    dataAt?_eq_some hp hx (Region.has_offset (r := im.object es x) hi)
  rw [contents, hfound]
  show content im m x (distance (im.symbol x) (offset (im.symbol x) i)) = _
  rw [distance_offset _ (by omega)]

/-- The memory holds the machine. -/
theorem holdsBytes_contents (hframed : Framed o p es) (ho : o.Valid)
    (hlength : p.rom.length ≤ 65535) (h : im.Assembles es stack) (m : Bytes o) :
    HoldsBytes im es (contents im es m) m := by
  have hp := placed_of_assembles hframed ho h
  obtain ⟨a, hlaid⟩ := h.laid
  have hsize {x : String} (hx : x ∈ dataNames) : im.extent (after es x) ≤ 1048576 :=
    extent_le hframed ho hlength hlaid (hp.label hx)
  refine ⟨?_, ?_, ?_⟩
  · intro b i hi
    have hextent : i < im.extent (after es b.written) := by rwa [hp.extent]
    rw [contents_offset hp (mem_dataNames b) hextent (hsize (mem_dataNames b))]
    cases b <;> rfl
  · have hafter : after es "out_fmt" = .operation "db" ["\"%d\"", "10", "0"] :: _ :=
      hframed.after_template (by decide)
    have hbytes : ["\"%d\"", "10", "0"].flatMap bytesOf = [37, 100, 10, 0] := by decide +kernel
    have hextent : im.extent (after es "out_fmt") = 4 := by
      rw [hafter]
      rfl
    have hformat : (Datum.bytes [37, 100, 10, 0]).In (contents im es m) (im.symbol "out_fmt") := by
      intro i hi
      rw [contents_offset hp (by decide) (hextent ▸ hi) (hsize (by decide)), content]
      simp [List.getElem?_eq_getElem hi]
    rw [← hbytes] at hformat
    rw [hafter]
    exact ⟨hformat, trivial⟩
  · have hextent : im.extent (after es "rom_table") = 8 * p.rom.length :=
      extent_table hframed
    rw [hframed.after_table]
    refine Image.Holding.of_words (fun k hk => ?_) trivial
    rw [flatten_tableRows, List.length_map, List.length_range] at hk
    have hbyte : ∀ j < 8, contents im es m (offset (offset (im.symbol "rom_table") (8 * k)) j) =
        UInt8.ofNat ((im.symbol (Label.slot k).written).toNat / 256 ^ j) := by
      intro j hj
      have hquotient : (8 * k + j) / 8 = k := by omega
      have hremainder : (8 * k + j) % 8 = j := by omega
      rw [offset_offset, contents_offset hp (by decide) (by omega) (hsize (by decide)), content]
      simp [hquotient, hremainder]
    have hword : (im.symbol (Label.slot k).written).toNat < 256 ^ 8 := BitVec.isLt _
    rw [load_eq_mod hbyte, Nat.mod_eq_of_lt hword]
    simp [flatten_tableRows, value_label]

/-! ## A processor that holds a machine -/

/-- Print a number; the number of characters is returned. -/
def printNumber (s : X86.State) : X86.State :=
  let text := toString (BitVec.ofNat 32 (s.get .rsi .dword)).toInt ++ "\n"
  { s with output := s.output ++ text }.set .rax .dword text.length

/-- A function that prints a number is one that `printf` may be. -/
theorem prints_printNumber (h : im.linked "printf" = printNumber) : Prints im es stack where
  output := fun s _ => by
    rw [h, String.append_assoc]
    rfl
  regs := fun s _ r hr => by
    have hrax : r ≠ .rax := by
      rintro rfl
      exact absurd hr (by decide)
    rw [h]
    exact State.regs_set_of_ne _ _ _ hrax
  data := fun s _ x _ a _ => by
    rw [h]
    rfl
  stack := fun s _ a _ _ => by
    rw [h]
    rfl

/-- A stack far behind every program. -/
def farStack : Region :=
  ⟨BitVec.ofNat 64 (2 ^ 62), 4096⟩

/-- **The text of a program can be put into memory**, and the processor can then hold any machine. -/
theorem exists_loaded (hframed : Framed o p es) (ho : o.Valid) (hlength : p.rom.length ≤ 65535) :
    ∃ im stack, im.Assembles es stack ∧ Prints im es stack ∧
      ∀ m : Machine o, ∃ s, Holds im es s m ∧ Room stack s 32 := by
  let im := image es fun _ => printNumber
  have hassembles : im.Assembles es farStack :=
    (loadable hframed ho hlength _).assembles (by decide) (by decide)
  refine ⟨im, farStack, hassembles, prints_printNumber rfl, fun m => ?_⟩
  let regs : X86.Reg → Word := fun r =>
    match r with
    | .rsp => offset farStack.base farStack.size
    | .r12 => BitVec.ofNat 64 m.sp
    | _ => 0
  refine ⟨⟨regs, contents im es m.toBytes, .unknown, m.output⟩,
    ⟨holdsBytes_contents hframed ho hlength hassembles m.toBytes, rfl, rfl⟩, ?_⟩
  have hdistance : distance farStack.base (offset farStack.base farStack.size) = 4096 := by decide
  exact ⟨by rw [hdistance]; decide, by rw [hdistance]; decide⟩

end Framed

end Nasm

end MacroAsm
