import MacroAsm.Proofs.Target.NasmRoutines

set_option autoImplicit false

/-! # The template in memory

What the built-in template says besides the code of a program, and what a memory holds that the text
of a program was put into: the data (`Nasm.placed_of_assembles`) and the routines
(`Nasm.coded_of_assembles`). -/

namespace MacroAsm

namespace Nasm

open Assembly X86

/-! ## Elements of the template -/

/-- What the template says behind the sizes and in front of the code. -/
def templateElements : List Element :=
  [.operation "default" ["rel"], .operation "extern" ["printf"], .operation "global" ["main"],
   .operation "section" [".bss"],
   .label "memory", .operation "resb" ["MEMORY_SIZE"],
   .label "stack", .operation "resb" ["STACK_SIZE"],
   .label "registers", .operation "resb" ["REGISTER_COUNT"],
   .operation "section" [".rodata"],
   .label "out_fmt", .operation "db" ["\"%d\"", "10", "0"],
   .operation "section" [".text"],
   .label "main", .operation "push" ["rbx"], .operation "push" ["r12"], .operation "push" ["r13"],
   .operation "xor" ["r12d", "r12d"], .operation "jmp" ["mccpu_program"],
   .label "mccpu_end", .operation "xor" ["eax", "eax"], .operation "pop" ["r13"],
   .operation "pop" ["r12"], .operation "pop" ["rbx"], .operation "ret" [],
   .label "mccpu_dispatch", .operation "cmp" ["rbx", "ROM_SIZE"], .operation "jae" ["mccpu_end"],
   .operation "lea" ["rcx", "[rom_table]"], .operation "jmp" ["[rcx + rbx * 8]"],
   .label "mccpu_push", .operation "lea" ["rcx", "[stack]"], .operation "mov" ["[rcx + r12]", "al"],
   .operation "inc" ["r12"], .operation "cmp" ["r12", "STACK_SIZE"], .operation "jb" [".done"],
   .operation "xor" ["r12d", "r12d"], .label ".done", .operation "ret" [],
   .label "mccpu_pop", .operation "test" ["r12", "r12"], .operation "jnz" [".dec"],
   .operation "mov" ["r12", "STACK_SIZE"], .label ".dec", .operation "dec" ["r12"],
   .operation "lea" ["rcx", "[stack]"], .operation "mov" ["al", "[rcx + r12]"],
   .operation "ret" [],
   .label "mccpu_out", .operation "push" ["rbp"], .operation "mov" ["rbp", "rsp"],
   .operation "and" ["rsp", "-16"], .operation "mov" ["esi", "edi"],
   .operation "lea" ["rdi", "[out_fmt]"], .operation "xor" ["eax", "eax"],
   .operation "call" ["printf wrt ..plt"], .operation "mov" ["rsp", "rbp"],
   .operation "pop" ["rbp"], .operation "ret" [],
   .label "mccpu_program"]

theorem flatMap_of_chars {lines : List String} {css : List (List Char)} {es : List Element}
    (h : lines = css.map String.ofList) (hes : css.flatMap elementsOf = es) :
    (lines.flatMap fun l => elementsOf l.toList) = es := by
  subst h
  simpa only [List.flatMap_map, String.toList_ofList] using hes

theorem elements_linesBefore : (linesBefore.flatMap fun l => elementsOf l.toList) = [] := by
  apply flatMap_of_chars
  · simp only [linesBefore, Template.builtinNasm, List.take]
    repeat apply cons_eq_map_ofList rfl
    exact List.map_nil.symm
  · decide +kernel

theorem elements_linesBehind :
    (linesBehind.flatMap fun l => elementsOf l.toList) = templateElements := by
  apply flatMap_of_chars
  · simp only [linesBehind, Template.builtinNasm, List.drop, List.dropLast]
    repeat apply cons_eq_map_ofList rfl
    exact List.map_nil.symm
  · decide +kernel

/-- The sizes as they are read. -/
def sizeElements (v : TemplateValues) : List Element :=
  [.operation "%define" ["MEMORY_SIZE" ++ " " ++ toString v.memorySize],
   .operation "%define" ["STACK_SIZE" ++ " " ++ toString v.stackSize],
   .operation "%define" ["REGISTER_COUNT" ++ " " ++ toString v.registerCount]]

theorem elements_sizeLines (v : TemplateValues) :
    ((sizeLines v).flatMap fun l => elementsOf l.toList) = sizeElements v := by
  have hmemory : IsName "MEMORY_SIZE" := by decide
  have hstack : IsName "STACK_SIZE" := by decide
  have hregisters : IsName "REGISTER_COUNT" := by decide
  simp [sizeLines, sizeElements, elementsOf_sizeLine hmemory, elementsOf_sizeLine hstack,
    elementsOf_sizeLine hregisters]

theorem frame_eq (v : TemplateValues) : frame v = sizeElements v ++ templateElements := by
  rw [frame, List.flatMap_append, List.flatMap_append, elements_linesBefore, elements_sizeLines,
    elements_linesBehind, List.nil_append]

/-! ## A program behind the template -/

section Program

open CFamily (Bank)

variable {o : Options} {p : Program} {es : List Element}

/-- A text that says what the template says, and then what the lines of a program say. -/
def Framed (o : Options) (p : Program) (es : List Element) : Prop :=
  es = frame (.ofOptions o (code p)) ++ elementsFrom p.rom 0

/-- The text of a compiled program is framed by the template. -/
theorem exists_framed {t tree : FileTree} {path : String} {main : List Line} {c : Compilation}
    (h : Compilation.ofLines t path main o = .ok c) (hp : c.program = some p)
    (hbuiltin : (o.templateDirectory.map fun d => Path.join d "nasm-x64.asm").filter tree.isFile =
      none) :
    ∃ text, Target.nasm.render tree o p = .ok text ∧ Framed o p (elements text) := by
  obtain ⟨xs, hstands⟩ := Compilation.program_stands h hp
  have hsource : ∀ s ∈ p.source, Unbroken s.toList := by
    intro s hs
    refine ⟨fun hc => ?_, fun hc => ?_⟩
    · exact absurd (hstands.isCodeChar_of_mem_source hs hc) (by decide)
    · exact absurd (hstands.isCodeChar_of_mem_source hs hc) (by decide)
  obtain ⟨text, htext, helements⟩ := exists_elements_render hbuiltin hsource
  rw [flatMap_elements] at helements
  exact ⟨text, htext, helements⟩

theorem Framed.nodup (h : Framed o p es) : (es.filterMap Element.label?).Nodup :=
  nodup_labels (labels_frame (v := .ofOptions o (code p))) h

/-- What stands behind a label of the template. -/
theorem Framed.after_template (h : Framed o p es) {name : String}
    (hname : .label name ∈ templateElements) :
    after es name = after templateElements name ++ elementsFrom p.rom 0 := by
  obtain ⟨pre, hpre⟩ := exists_after hname
  refine after_of_nodup (sizeElements (.ofOptions o (code p)) ++ pre) h.nodup ?_
  rw [h, frame_eq, List.append_assoc, List.append_assoc, ← List.cons_append, ← List.append_assoc pre,
    ← hpre]

theorem Framed.mem_template (h : Framed o p es) {e : Element} (he : e ∈ templateElements) :
    e ∈ es := by
  rw [h, frame_eq]
  simp [he]

theorem Framed.after_romSize (h : Framed o p es) :
    .label "ROM_SIZE" ∈ es ∧ ∃ rest,
      after es "ROM_SIZE" = .operation "equ" [toString p.rom.length] :: rest :=
  Nasm.after_romSize (labels_frame (v := .ofOptions o (code p))) h

theorem Framed.after_table (h : Framed o p es) : after es "rom_table" =
    (tableRows p.rom.length).map (.operation "dq") ++ [.operation "section" [".text"]] :=
  after_romTable (labels_frame (v := .ofOptions o (code p))) h

/-! ## Data -/

variable {im : Image} {stack : Region}

theorem extent_reserved (arg : String) (rest : List Element)
    (hrest : im.extent rest = 0) :
    im.extent (.operation "resb" [arg] :: rest) = (im.value arg).toNat := by
  rw [Image.extent]
  show (im.value arg).toNat + im.extent rest = _
  rw [hrest, Nat.add_zero]

theorem value_name {name : String} (h : number? name.toList = none) :
    im.value name = im.symbol name := by
  rw [Image.value, h]

theorem value_label (l : Label) : im.value l.written = im.symbol l.written :=
  value_name (number?_label l)

/-- A size as the template defines it. -/
theorem symbol_size (hframed : Framed o p es) {a : Word} (h : im.Laid "" es a) {name : String} {n : Nat}
    (hname : IsName name)
    (hmem : .operation "%define" [name ++ " " ++ toString n] ∈ sizeElements (.ofOptions o (code p))) :
    im.symbol name = BitVec.ofNat 64 n := by
  have hdefine : .operation "%define" [name ++ " " ++ toString n] ∈ es := by
    rw [hframed, frame_eq]
    exact List.mem_append_left _ (List.mem_append_left _ hmem)
  have hvalue := h.replaced hdefine _ (Image.replaced?_define hname n)
  rwa [value_toString] at hvalue

/-- The sizes stand for those of the options. -/
theorem symbol_sizes (hframed : Framed o p es) {a : Word} (h : im.Laid "" es a) :
    im.symbol "MEMORY_SIZE" = BitVec.ofNat 64 o.memorySize ∧
      im.symbol "STACK_SIZE" = BitVec.ofNat 64 o.stackSize ∧
      im.symbol "REGISTER_COUNT" = BitVec.ofNat 64 o.registerCount :=
  ⟨symbol_size hframed h (by decide) List.mem_cons_self,
    symbol_size hframed h (by decide) (List.mem_cons_of_mem _ List.mem_cons_self),
    symbol_size hframed h (by decide)
      (List.mem_cons_of_mem _ (List.mem_cons_of_mem _ List.mem_cons_self))⟩

/-- The arrays have the sizes of the options. -/
theorem extent_bank (hframed : Framed o p es) (ho : o.Valid) {a : Word} (h : im.Laid "" es a)
    (b : Bank) : im.extent (after es b.written) = o.bankSize b := by
  obtain ⟨hmemory, hstack, hregisters⟩ := symbol_sizes hframed h
  -- each array is reserved by one line, and then comes another label or part
  have hextent {arg : String} {rest : List Element} (hb : .label b.written ∈ templateElements)
      (hafter : after templateElements b.written = .operation "resb" [arg] :: rest)
      (hrest : ∀ more, im.extent (rest ++ more) = 0) (harg : number? arg.toList = none)
      (hsize : im.symbol arg = BitVec.ofNat 64 (o.bankSize b)) :
      im.extent (after es b.written) = o.bankSize b := by
    have hlt : o.bankSize b < 2 ^ 64 := Nat.lt_of_le_of_lt (ho.bankSize_le b) (by decide)
    rw [hframed.after_template hb, hafter, List.cons_append, extent_reserved _ _ (hrest _),
      value_name harg, hsize, BitVec.toNat_ofNat, Nat.mod_eq_of_lt hlt]
  cases b with
  | registers => exact hextent (by decide) rfl (fun _ => rfl) (by decide) hregisters
  | memory => exact hextent (by decide) rfl (fun _ => rfl) (by decide) hmemory
  | stack => exact hextent (by decide) rfl (fun _ => rfl) (by decide) hstack

/-- The data of the program are placed as the template says. -/
theorem placed_of_assembles (hframed : Framed o p es) (ho : o.Valid) (h : im.Assembles es stack) :
    Placed im es stack o p.rom.length := by
  obtain ⟨pre, hpre⟩ := exists_eq_append_closing hframed
  have hlabel {x : String} (hx : x ∈ dataNames) : .label x ∈ es := by
    simp only [dataNames, List.mem_cons, List.not_mem_nil, or_false] at hx
    rcases hx with rfl | rfl | rfl | rfl | rfl
    · exact hframed.mem_template (by decide)
    · exact hframed.mem_template (by decide)
    · exact hframed.mem_template (by decide)
    · exact hframed.mem_template (by decide)
    · rw [hpre]
      simp [closing]
  obtain ⟨a, hlaid⟩ := h.laid
  obtain ⟨hmemory, hstack, -⟩ := symbol_sizes hframed hlaid
  refine ⟨hlabel, extent_bank hframed ho hlaid, hmemory, hstack, ?_, ?_, ?_,
    fun hx hy => h.apart (hlabel hx) (hlabel hy), fun hx => h.stack (hlabel hx)⟩
  · obtain ⟨hmem, rest, hafter⟩ := hframed.after_romSize
    rw [h.equal hmem (by decide) hafter, value_toString]
  · intro m hholding
    have hdata : after es "out_fmt" = .operation "db" ["\"%d\"", "10", "0"] :: _ :=
      hframed.after_template (by decide)
    rw [hdata] at hholding
    exact hholding.1
  · intro m hholding k hk
    rw [hframed.after_table] at hholding
    have hword := hholding.words (i := k) (by simpa [flatten_tableRows] using hk)
    simpa [flatten_tableRows, value_label] using hword

/-! ## Code -/

/-- Behind a label of the template stands the code that is said there. -/
theorem exists_code (hframed : Framed o p es) (h : im.Assembles es stack) {name : String}
    {block post : List Element} {is : List X86.Instr}
    (hread : block.mapM (elementInstr? name) = some is) (hname : .label name ∈ templateElements)
    (hglobal : name.toList.head? ≠ some '.')
    (hafter : after templateElements name = block ++ post)
    (hnumber : ∀ more, im.equated? (block ++ more) = none) :
    ∃ b, im.Code is (im.symbol name) b ∧ im.Laid name (post ++ elementsFrom p.rom 0) b := by
  have hes : after es name = block ++ (post ++ elementsFrom p.rom 0) := by
    rw [hframed.after_template hname, hafter, List.append_assoc]
  have hlaid := h.behind (hframed.mem_template hname) hglobal (by rw [hes]; exact hnumber _)
  rw [hes] at hlaid
  exact hlaid.code hread

/-- So does the code behind a label that belongs to another one. -/
theorem exists_code_local (hframed : Framed o p es) (h : im.Assembles es stack)
    {name inner : String} {block block' post : List Element} {is js : List X86.Instr}
    (hread : block.mapM (elementInstr? name) = some is)
    (hread' : block'.mapM (elementInstr? name) = some js) (hname : .label name ∈ templateElements)
    (hglobal : name.toList.head? ≠ some '.') (hinner : inner.toList.head? = some '.')
    (hafter : after templateElements name = block ++ .label inner :: (block' ++ post))
    (hnumber : ∀ more, im.equated? (block ++ more) = none)
    (hnumber' : ∀ more, im.equated? (block' ++ more) = none) :
    ∃ b, im.Code is (im.symbol name) (im.symbol (name ++ inner)) ∧
      im.Code js (im.symbol (name ++ inner)) b := by
  obtain ⟨a, hcode, hlaid⟩ := exists_code hframed h hread hname hglobal hafter hnumber
  rw [List.cons_append, List.append_assoc] at hlaid
  obtain ⟨ha, hlaid⟩ := hlaid.label (hnumber' _)
  rw [if_pos hinner] at hlaid
  rw [qualify, if_pos hinner] at ha
  obtain ⟨b, hcode', -⟩ := hlaid.code hread'
  exact ⟨b, ha ▸ hcode, ha ▸ hcode'⟩

/-- The routines of the template stand behind their labels. -/
theorem coded_of_assembles (hframed : Framed o p es) (h : im.Assembles es stack) : Coded im where
  finish := by
    have hread : [Element.operation "xor" ["eax", "eax"]].mapM (elementInstr? "mccpu_end") =
        some [.op (.binary .xor .dword (.reg .rax .dword) (.reg .rax .dword))] := by
      decide +kernel
    obtain ⟨b, hcode, -⟩ :=
      exists_code hframed h hread (by decide) (by decide) rfl (fun _ => rfl)
    exact ⟨b, Image.code_singleton.1 hcode⟩
  dispatch := by
    have hread : [Element.operation "cmp" ["rbx", "ROM_SIZE"], .operation "jae" ["mccpu_end"],
        .operation "lea" ["rcx", "[rom_table]"], .operation "jmp" ["[rcx + rbx * 8]"]].mapM
          (elementInstr? "mccpu_dispatch") =
        some (checkOps.map .op ++ ([.jump .notBelow "mccpu_end"] ++
          ([.op (.lea .rcx [.sym "rom_table"])] ++ [.jumpThrough [.reg .rcx 1, .reg .rbx 8]]))) := by
      decide +kernel
    obtain ⟨e, hcode, -⟩ :=
      exists_code hframed h hread (by decide) (by decide) rfl (fun _ => rfl)
    obtain ⟨b, hcheck, hcode⟩ := Image.code_append.1 hcode
    obtain ⟨c, hjump, hcode⟩ := Image.code_append.1 hcode
    obtain ⟨d, hlea, hthrough⟩ := Image.code_append.1 hcode
    exact ⟨b, c, d, e, hcheck, hjump, hlea, hthrough⟩
  push := by
    have hread : [Element.operation "lea" ["rcx", "[stack]"], .operation "mov" ["[rcx + r12]", "al"],
        .operation "inc" ["r12"], .operation "cmp" ["r12", "STACK_SIZE"], .operation "jb" [".done"],
        .operation "xor" ["r12d", "r12d"]].mapM (elementInstr? "mccpu_push") =
        some (pushOps.map .op ++ ([.jump .below "mccpu_push.done"] ++
          [.op (.binary .xor .dword (.reg .r12 .dword) (.reg .r12 .dword))])) := by
      decide +kernel
    have hread' : [Element.operation "ret" []].mapM (elementInstr? "mccpu_push") = some [.ret] := by
      decide +kernel
    obtain ⟨d, hcode, hret⟩ := exists_code_local hframed h hread hread'
      (by decide) (by decide) (by decide) rfl (fun _ => rfl) (fun _ => rfl)
    obtain ⟨b, hops, hcode⟩ := Image.code_append.1 hcode
    obtain ⟨c, hjump, hclear⟩ := Image.code_append.1 hcode
    exact ⟨b, c, d, hops, hjump, hclear, hret⟩
  pop := by
    have hread : [Element.operation "test" ["r12", "r12"], .operation "jnz" [".dec"],
        .operation "mov" ["r12", "STACK_SIZE"]].mapM (elementInstr? "mccpu_pop") =
        some ([.op (.binary .test .qword (.reg .r12 .qword) (.reg .r12 .qword))] ++
          ([.jump .notEqual "mccpu_pop.dec"] ++
            [.op (.binary .mov .qword (.reg .r12 .qword) (.sym "STACK_SIZE"))])) := by
      decide +kernel
    have hread' : [Element.operation "dec" ["r12"], .operation "lea" ["rcx", "[stack]"],
        .operation "mov" ["al", "[rcx + r12]"], .operation "ret" []].mapM
          (elementInstr? "mccpu_pop") = some (popOps.map .op ++ [.ret]) := by
      decide +kernel
    obtain ⟨e, hcode, hcode'⟩ := exists_code_local hframed h hread hread' (by decide) (by decide)
      (by decide) rfl (fun _ => rfl) (fun _ => rfl)
    obtain ⟨b, htest, hcode⟩ := Image.code_append.1 hcode
    obtain ⟨c, hjump, hfull⟩ := Image.code_append.1 hcode
    obtain ⟨d, hops, hret⟩ := Image.code_append.1 hcode'
    exact ⟨b, c, d, e, htest, hjump, hfull, hops, hret⟩
  out := by
    have hread : [Element.operation "push" ["rbp"], .operation "mov" ["rbp", "rsp"],
        .operation "and" ["rsp", "-16"], .operation "mov" ["esi", "edi"],
        .operation "lea" ["rdi", "[out_fmt]"], .operation "xor" ["eax", "eax"],
        .operation "call" ["printf wrt ..plt"], .operation "mov" ["rsp", "rbp"],
        .operation "pop" ["rbp"], .operation "ret" []].mapM (elementInstr? "mccpu_out") =
        some (printOps.map .op ++ ([.callLinked "printf"] ++ (restoreOps.map .op ++ [.ret]))) := by
      decide +kernel
    obtain ⟨e, hcode, -⟩ :=
      exists_code hframed h hread (by decide) (by decide) rfl (fun _ => rfl)
    obtain ⟨b, hops, hcode⟩ := Image.code_append.1 hcode
    obtain ⟨c, hcall, hcode⟩ := Image.code_append.1 hcode
    obtain ⟨d, hrestore, hret⟩ := Image.code_append.1 hcode
    exact ⟨b, c, d, e, hops, hcall, hrestore, hret⟩

end Program

end Nasm

end MacroAsm
