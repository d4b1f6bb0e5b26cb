import MacroAsm.Proofs.Target.CLoop
import MacroAsm.Proofs.Target.NasmLoading
import MacroAsm.Proofs.Target.NasmSteps

set_option autoImplicit false

/-! # Agreement of the targets

The text for an assembler and the statements in C are written apart, and mean the same
(`Nasm.render_agrees`): from any state, the code of an instruction does what its statements do, and the
processor goes on where they leave the place in the program. -/

namespace MacroAsm

variable {o : Options}

namespace Nasm

open Assembly X86

/-! ## The first instruction of a slot -/

/-- The instruction that stands at the end of a program. -/
def finishInstr : X86.Instr :=
  .op (.binary .xor .dword (.reg .rax .dword) (.reg .rax .dword))

/-- The code of a word begins with an instruction that is not the one at the end. -/
theorem exists_first (w : RomWord) (k n : Nat) :
    ∃ i is, instrs w k n = i :: is ∧
      ∀ scope, ∃ x, elementInstr? scope i.element = some x ∧ x ≠ finishInstr := by
  obtain ⟨op, a, b⟩ := w
  cases op with
  | nop => exact ⟨_, _, rfl, fun _ => ⟨_, read_nop, nofun⟩⟩
  | jmp => exact ⟨_, _, rfl, fun _ => ⟨_, read_jump _ _, nofun⟩⟩
  | hlt => exact ⟨_, _, rfl, fun _ => ⟨_, read_jump _ _, nofun⟩⟩
  | pop => exact ⟨_, _, rfl, fun _ => ⟨_, read_call _, nofun⟩⟩
  | ret => exact ⟨_, _, rfl, fun _ => ⟨_, read_call _, nofun⟩⟩
  | not => exact ⟨_, _, rfl, fun _ => ⟨_, read_unary rfl, nofun⟩⟩
  | inc => exact ⟨_, _, rfl, fun _ => ⟨_, read_unary rfl, nofun⟩⟩
  | dec => exact ⟨_, _, rfl, fun _ => ⟨_, read_unary rfl, nofun⟩⟩
  | _ => exact ⟨_, _, rfl, fun _ => ⟨_, read_binary rfl, nofun⟩⟩

section Text

variable {p : Program} {es : List Element} {im : Image} {stack : Region}
variable {k : Nat} {w : RomWord} {m : Machine o}

theorem equated?_instrs (w : RomWord) (k n : Nat) (rest : List Element) :
    im.equated? ((instrs w k n).map Instr.element ++ rest) = none := by
  obtain ⟨i, is, his, -⟩ := exists_first w k n
  rw [his, List.map_cons, element_eq]
  exact equated?_of_notMem (mnemonic_notMem_directives i) _ _

/-- The code of an instruction stands behind its label. -/
theorem laid_slot (hframed : Framed o p es) (h : im.Assembles es stack) (hk : p.rom[k]? = some w) :
    im.Laid (Label.slot k).written
      ((instrs w k p.rom.length).map Instr.element ++ elementsFrom p.rom (k + 1))
      (im.symbol (Label.slot k).written) := by
  have hafter := after_slot labels_frame hframed hk
  have hmem : .label (Label.slot k).written ∈ es :=
    mem_labels labels_frame hframed (l := .slot k) (List.getElem?_eq_some_iff.1 hk).1
  have hglobal : (Label.slot k).written.toList.head? ≠ some '.' := by
    rw [written_slot, String.toList_append]
    simp
  have hlaid := h.behind hmem hglobal (by rw [hafter]; exact equated?_instrs w k _ _)
  rwa [hafter] at hlaid

/-- The label of an instruction and the one at the end name different addresses. -/
theorem symbol_slot_ne (hframed : Framed o p es) (h : im.Assembles es stack)
    (hk : p.rom[k]? = some w) :
    im.symbol (Label.slot k).written ≠ im.symbol Label.finish.written := by
  obtain ⟨i, is, his, hread⟩ := exists_first w k p.rom.length
  have hlaid := laid_slot hframed h hk
  rw [his] at hlaid
  obtain ⟨x, hx, hne⟩ := hread (Label.slot k).written
  obtain ⟨b, hcode, -⟩ := hlaid.next hx
  obtain ⟨c, hfinish⟩ := (coded_of_assembles hframed h).finish
  intro heq
  have hfirst := Image.code_singleton.1 hcode
  rw [heq] at hfirst
  obtain ⟨rfl, -⟩ := Prod.mk.inj (Option.some.inj (hfirst.symm.trans hfinish))
  exact hne rfl

/-- The processor is at the end when an instruction stops the program or leads out of it. -/
theorem symbol_goal (hframed : Framed o p es) (h : im.Assembles es stack) (w : RomWord) (pc : Nat) :
    im.symbol (goal w pc p.rom.length).written = im.symbol Label.finish.written ↔
      w.op = .hlt ∨ p.rom.length ≤ pc := by
  by_cases hop : w.op = .hlt
  · simp [goal, hop]
  · by_cases hpc : pc < p.rom.length
    · have hne := symbol_slot_ne hframed h (List.getElem?_eq_getElem hpc)
      simp [goal, target, hop, hpc, hne]
    · simp [goal, target, hop, hpc, Nat.le_of_not_lt hpc]

/-- What is said from an instruction on begins with its code, or jumps to the end behind the last. -/
theorem goes_target {scope : String} {b : Word} (hlaid : im.Laid scope (elementsFrom p.rom k) b)
    (s : X86.State) :
    im.Goes (b, s) (im.symbol (target k p.rom.length).written, s) := by
  by_cases hk : k < p.rom.length
  · have hnext : p.rom[k]? = some p.rom[k] := List.getElem?_eq_getElem hk
    rw [elementsFrom_of_getElem? hnext, slotElements, List.cons_append] at hlaid
    obtain ⟨hb, -⟩ := hlaid.label (equated?_instrs _ _ _ _)
    rw [qualify_label] at hb
    rw [target, if_pos hk, hb]
    exact .refl
  · rw [elementsFrom_of_le (Nat.le_of_not_lt hk), closing] at hlaid
    have hread : elementInstr? scope (.operation "jmp" ["mccpu_end"]) =
        some (.jump .always "mccpu_end") := by
      have hjump : elementInstr? scope (Instr.jump .always .finish).element =
          some (.jump .always "mccpu_end") := read_jump .always .finish
      rwa [element_eq] at hjump
    obtain ⟨d, hjump, -⟩ := hlaid.next hread
    rw [target, if_neg hk]
    exact (Image.runs_taken hjump rfl).goes

/-! ## Steps -/

/-- The code in a slot, from its label on, takes the processor from a machine to another one, and to the
    label of the code at which that goes on. Flags and the other registers may be anything. -/
def Steps (im : Image) (es : List Element) (stack : Region) (n k : Nat) (w : RomWord)
    (m m' : Machine o) : Prop :=
  ∀ s, Holds im es s m → Room stack s 32 →
    ∃ s', im.Runs (im.symbol (Label.slot k).written, s)
        (im.symbol (goal w m'.pc n).written, s') ∧
      Holds im es s' m' ∧ s'.regs .rsp = s.regs .rsp

/-- The code of an instruction does what the instruction does. -/
theorem steps_execute (hframed : Framed o p es) (ho : o.Valid) (h : im.Assembles es stack)
    (hprints : Prints im es stack) (hlength : p.rom.length ≤ 65535) (hk : p.rom[k]? = some w)
    (hw : w.InRange o p.rom.length) (hsp : m.sp < o.stackSize) (hpc : m.pc = k + 1) :
    Steps im es stack p.rom.length k w m (m.execute w) := by
  intro s hholds hroom
  have hfollows := follows (placed_of_assembles hframed ho h) ho (coded_of_assembles hframed h) hprints
    (by omega) hw hsp hpc
  obtain ⟨b, s', hruns, hholds', hrsp, hreaches⟩ :=
    hfollows _ _ _ s (laid_slot hframed h hk) hholds hroom
  refine ⟨s', ?_, hholds', hrsp⟩
  cases hreaches with
  | behind hlaid hop hnext =>
    rw [hnext, goal, if_neg hop]
    exact hruns.trans_goes (goes_target hlaid s')
  | label => exact hruns

/-! ## Runs -/

/-- The label of the code at which a machine goes on. -/
def place (m : Machine o) (n : Nat) : Label :=
  if m.running then target m.pc n else .finish

theorem running_execute (m : Machine o) (w : RomWord) :
    (m.execute w).running = (m.running && w.op != .hlt) := by
  obtain ⟨op, a, b⟩ := w
  cases op with
  | jz | jnz =>
    simp only [Machine.execute]
    split <;> simp [Machine.jump]
  | _ => simp [Machine.execute, Machine.setReg, Machine.setByteAt, Machine.push, Machine.lower,
      Machine.jump]

theorem place_execute (hrunning : m.running = true) (w : RomWord) (n : Nat) :
    place (m.execute w) n = goal w (m.execute w).pc n := by
  rw [place, goal, running_execute, hrunning]
  by_cases hop : w.op = .hlt <;> simp [hop]

/-- A step of the machine is a way of the processor. -/
theorem goes_step (hframed : Framed o p es) (ho : o.Valid) (h : im.Assembles es stack)
    (hprints : Prints im es stack) (hlength : p.rom.length ≤ 65535)
    (hrom : ∀ w ∈ p.rom, w.InRange o p.rom.length) (hsp : m.sp < o.stackSize) {s : X86.State}
    (hholds : Holds im es s m) (hroom : Room stack s 32) :
    ∃ s', im.Goes (im.symbol (place m p.rom.length).written, s)
        (im.symbol (place (m.step p.rom) p.rom.length).written, s') ∧
      Holds im es s' (m.step p.rom) ∧ s'.regs .rsp = s.regs .rsp := by
  cases hrunning : m.running with
  | false =>
    have hstep : m.step p.rom = m := by rw [Machine.step, if_neg (by simp [hrunning])]
    rw [hstep]
    exact ⟨s, .refl, hholds, rfl⟩
  | true =>
    cases hw : p.rom[m.pc]? with
    | none =>
      have hstep : m.step p.rom = { m with running := false } := by
        rw [Machine.step, if_pos hrunning, hw]
      have hpast : ¬ m.pc < p.rom.length := Nat.not_lt.2 (List.getElem?_eq_none_iff.1 hw)
      rw [hstep, place, if_pos hrunning, target, if_neg hpast]
      exact ⟨s, .refl, hholds.goes _ _, rfl⟩
    | some w =>
      have hlt : m.pc < p.rom.length := (List.getElem?_eq_some_iff.1 hw).1
      let next : Machine o := { m with pc := m.pc + 1 }
      have hstep : m.step p.rom = next.execute w := by
        rw [Machine.step, if_pos hrunning, hw]
      obtain ⟨s', hruns, hholds', hrsp⟩ := steps_execute hframed ho h hprints hlength hw
        (hrom w (List.mem_of_getElem? hw)) (m := next) hsp rfl s (hholds.goes _ _) hroom
      rw [hstep, place_execute (m := next) hrunning, place, if_pos hrunning, target, if_pos hlt]
      exact ⟨s', hruns.goes, hholds', hrsp⟩

/-- So are some steps. -/
theorem goes_steps (hframed : Framed o p es) (ho : o.Valid) (h : im.Assembles es stack)
    (hprints : Prints im es stack) (hlength : p.rom.length ≤ 65535)
    (hrom : ∀ w ∈ p.rom, w.InRange o p.rom.length) (j : Nat) (hm : m.Sound) {s : X86.State}
    (hholds : Holds im es s m) (hroom : Room stack s 32) :
    ∃ s', im.Goes (im.symbol (place m p.rom.length).written, s)
        (im.symbol (place (m.steps p.rom j) p.rom.length).written, s') ∧
      Holds im es s' (m.steps p.rom j) ∧ s'.regs .rsp = s.regs .rsp := by
  induction j generalizing m s with
  | zero => exact ⟨s, .refl, hholds, rfl⟩
  | succ j ih =>
    obtain ⟨t, hgoes, hholds', hrsp⟩ :=
      goes_step hframed ho h hprints hlength hrom hm.sp hholds hroom
    obtain ⟨s', hrest, hheld, hrsp'⟩ :=
      ih (hm.step hlength) hholds' (hroom.mono hrsp (Nat.le_refl _))
    exact ⟨s', hgoes.trans hrest, hheld, hrsp'.trans hrsp⟩

end Text

/-! ## Compiled programs -/

/-- A text that was put into memory agrees with the statements of the program in C: an instruction is
    the same change of the machine in both, and the processor goes on at the label of the instruction
    to which the statements lead. -/
structure Agrees (o : Options) (p : Program) (es : List Element) (im : Image) (stack : Region) :
    Prop where
  step : ∀ {k : Nat} {w : RomWord}, p.rom[k]? = some w → ∀ m : Machine o, m.sp < o.stackSize →
    m.pc = k + 1 → ∃ m' : Machine o,
      CFamily.execAll (CFamily.stmts w) m.store = some m'.store ∧ m'.sp < o.stackSize ∧
        Steps im es stack p.rom.length k w m m'
  /-- The end is reached when an instruction stops the program or leads out of it, and only then. -/
  finish : ∀ (w : RomWord) (pc : Nat),
    im.symbol (goal w pc p.rom.length).written = im.symbol "mccpu_end" ↔
      w.op = .hlt ∨ p.rom.length ≤ pc

/-- **The targets agree.** With the built-in template, the text of every program that a compilation
    makes does what its statements in C do, wherever it is put into memory. -/
theorem render_agrees {t tree : FileTree} {path : String} {main : List Line} {c : Compilation}
    {p : Program} (h : Compilation.ofLines t path main o = .ok c) (hp : c.program = some p)
    (hbuiltin : (o.templateDirectory.map fun d => Path.join d "nasm-x64.asm").filter tree.isFile =
      none) :
    ∃ text, Target.nasm.render tree o p = .ok text ∧
      ∀ (im : Image) (stack : Region), im.Assembles (elements text) stack →
        Prints im (elements text) stack → Agrees o p (elements text) im stack := by
  obtain ⟨hv, -⟩ := Compilation.program_of_ofLines h hp
  obtain ⟨xs, hstands⟩ := Compilation.program_stands h hp
  have ho := Options.validate_eq_ok_iff.1 hv
  have hlength : p.rom.length ≤ 65535 := Compilation.length_rom_of_ofLines h hp
  obtain ⟨text, htext, hframed⟩ := exists_framed h hp hbuiltin
  refine ⟨text, htext, fun im stack hassembles hprints => ⟨?_, symbol_goal hframed hassembles⟩⟩
  intro k w hk m hsp hpc
  have hw : w.InRange o p.rom.length := hstands.inRange (List.mem_of_getElem? hk)
  have hlt : k < p.rom.length := (List.getElem?_eq_some_iff.1 hk).1
  have hsound : m.Sound := ⟨hsp, by omega⟩
  exact ⟨m.execute w, CFamily.execAll_stmts ho hw hsp (by omega), (hsound.execute w).sp,
    steps_execute hframed ho hassembles hprints hlength hk hw hsp hpc⟩

/-- A number is printed, and then the stack says where to go on. -/
def printAndReturn : List Line :=
  Line.ofText "main" "out &r1\nret"

/-- A machine behind the first instruction, with a number in a register. -/
def sevenInRegister : Machine .default :=
  ({ Machine.start .default with pc := 1 } : Machine .default).setReg 1 7

theorem printAndReturn_agrees :
    ∃ c p text im stack s s', Compilation.ofLines ⟨[], []⟩ "main" printAndReturn .default = .ok c ∧
      c.program = some p ∧ p.rom = [⟨.out, 1, 0⟩, ⟨.ret, 0, 0⟩] ∧
      Target.nasm.render ⟨[], []⟩ .default p = .ok text ∧
      im.Assembles (elements text) stack ∧ Prints im (elements text) stack ∧
      Holds im (elements text) s sevenInRegister ∧ Room stack s 32 ∧
      im.Runs (im.symbol "mccpu_0", s) (im.symbol "mccpu_1", s') ∧ s'.output = "7\n" := by
  have hfacts : Includes.requests "main" printAndReturn = [] ∧
      (Compilation.fullReport .default printAndReturn []
        (.ofList (printAndReturn.filterMap Compilation.directiveMessage?) ++ .empty)).hasError =
          false ∧
      (Compilation.linked .default printAndReturn []).1.rom = [⟨.out, 1, 0⟩, ⟨.ret, 0, 0⟩] := by
    decide +kernel
  have hstmts : (CFamily.execAll (CFamily.stmts ⟨.out, 1, 0⟩) sevenInRegister.store).map
      (fun c => (c.pc, c.output)) = some (1, "7\n") := by
    decide +kernel
  obtain ⟨hrequests, he, hrom⟩ := hfacts
  obtain ⟨c, h, hp⟩ :=
    Compilation.ofLines_eq_ok_of_requests ⟨[], []⟩ (by decide +kernel) hrequests (.inl rfl) he
  obtain ⟨text, htext, hagrees⟩ := render_agrees h hp rfl
  obtain ⟨text', htext', hframed⟩ := exists_framed h hp rfl
  obtain rfl : text = text' := Except.ok.inj (htext.symm.trans htext')
  have ho : Options.default.Valid := Options.validate_eq_ok_iff.1 (by decide)
  obtain ⟨im, stack, hassembles, hprints, hloaded⟩ :=
    exists_loaded hframed ho (by rw [hrom]; decide)
  obtain ⟨s, hholds, hroom⟩ := hloaded sevenInRegister
  obtain ⟨m', hexec, -, hsteps⟩ := (hagrees im stack hassembles hprints).step
    (k := 0) (congrArg (·[0]?) hrom) sevenInRegister (by decide) rfl
  obtain ⟨s', hruns, hholds', -⟩ := hsteps s hholds hroom
  rw [hexec] at hstmts
  obtain ⟨hpc, houtput⟩ := Prod.mk.inj (Option.some.inj hstmts)
  have hpc' : m'.pc = 1 := Int.ofNat_inj.1 hpc
  rw [hpc', hrom] at hruns
  exact ⟨c, _, text, im, stack, s, s', h, hp, hrom, htext, hassembles, hprints, hholds, hroom, hruns,
    hholds'.output.trans houtput⟩

/-- The text of every program can be put into memory, with any machine. -/
theorem render_loads {t tree : FileTree} {path : String} {main : List Line} {c : Compilation}
    {p : Program} (h : Compilation.ofLines t path main o = .ok c) (hp : c.program = some p)
    (hbuiltin : (o.templateDirectory.map fun d => Path.join d "nasm-x64.asm").filter tree.isFile =
      none) :
    ∃ text, Target.nasm.render tree o p = .ok text ∧
      ∃ (im : Image) (stack : Region), im.Assembles (elements text) stack ∧
        Prints im (elements text) stack ∧
        ∀ m : Machine o, ∃ s, Holds im (elements text) s m ∧ Room stack s 32 := by
  obtain ⟨hv, -⟩ := Compilation.program_of_ofLines h hp
  obtain ⟨text, htext, hframed⟩ := exists_framed h hp hbuiltin
  exact ⟨text, htext, exists_loaded hframed (Options.validate_eq_ok_iff.1 hv)
    (Compilation.length_rom_of_ofLines h hp)⟩

/-- **The text is the program.** From the label in front of the program, when the arrays hold zeros,
    the processor goes through all machines that the program goes through; when that has stopped, it
    is at the end. -/
theorem render_goes {t tree : FileTree} {path : String} {main : List Line} {c : Compilation}
    {p : Program} (h : Compilation.ofLines t path main o = .ok c) (hp : c.program = some p)
    (hbuiltin : (o.templateDirectory.map fun d => Path.join d "nasm-x64.asm").filter tree.isFile =
      none) :
    ∃ text, Target.nasm.render tree o p = .ok text ∧
      ∀ (im : Image) (stack : Region), im.Assembles (elements text) stack →
        Prints im (elements text) stack → ∀ (j : Nat) (s : X86.State),
          Holds im (elements text) s (Machine.start o) → Room stack s 32 →
          ∃ s', im.Goes (im.symbol "mccpu_program", s)
              (im.symbol (place ((Machine.start o).steps p.rom j) p.rom.length).written, s') ∧
            Holds im (elements text) s' ((Machine.start o).steps p.rom j) := by
  obtain ⟨hv, -⟩ := Compilation.program_of_ofLines h hp
  obtain ⟨xs, hstands⟩ := Compilation.program_stands h hp
  have ho := Options.validate_eq_ok_iff.1 hv
  have hlength : p.rom.length ≤ 65535 := Compilation.length_rom_of_ofLines h hp
  have hrom : ∀ w ∈ p.rom, w.InRange o p.rom.length := fun w hw => hstands.inRange hw
  obtain ⟨text, htext, hframed⟩ := exists_framed h hp hbuiltin
  refine ⟨text, htext, fun im stack hassembles hprints j s hholds hroom => ?_⟩
  obtain ⟨s', hgoes, hholds', -⟩ := goes_steps hframed ho hassembles hprints hlength hrom j
    (Machine.sound_start ho) hholds hroom
  have hbehind : after (elements text) "mccpu_program" = elementsFrom p.rom 0 :=
    hframed.after_template (by decide)
  have hnumber : im.equated? (elementsFrom p.rom 0) = none := by
    cases hr : p.rom with
    | nil => rfl
    | cons w rom => rfl
  have hlaid := hassembles.behind (hframed.mem_template (by decide)) (by decide)
    (hbehind ▸ hnumber)
  rw [hbehind] at hlaid
  exact ⟨s', (goes_target hlaid s).trans hgoes, hholds'⟩

end Nasm

end MacroAsm
