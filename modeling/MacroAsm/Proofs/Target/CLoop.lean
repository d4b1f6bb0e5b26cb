import MacroAsm.Proofs.Target.CReading
import MacroAsm.Proofs.Target.CSteps

set_option autoImplicit false

/-! # The loop

The loop that a program becomes does what the machine does: each turn is a step, whatever is in the
registers, in memory and on the stack (`CFamily.turn_of_agrees`), so both print the same and end at
the same time. -/

namespace MacroAsm

variable {o : Options} {rom : List RomWord}

/-! ## Steps of a machine -/

namespace Machine

variable {m : Machine o}

/-- What is true of a machine at each step: the stack pointer is on the stack, and the place in the
    program fits the two bytes that a call pushes. -/
structure Sound (m : Machine o) : Prop where
  sp : m.sp < o.stackSize
  pc : m.pc ≤ 65535

theorem sound_start (ho : o.Valid) : (start o).Sound :=
  ⟨ho.stackSize.1, Nat.zero_le _⟩

theorem Sound.execute (h : m.Sound) (w : RomWord) : (m.execute w).Sound := by
  obtain ⟨op, a, b⟩ := w
  have ha := a.toNat_lt
  have hb := b.toNat_lt
  have hpush (v : UInt8) : (m.push v).Sound := ⟨sp_push_lt h.sp v, h.pc⟩
  have hlower : m.lower.Sound := ⟨sp_lower_lt h.sp, h.pc⟩
  cases op with
  | jmp => exact ⟨h.sp, Nat.le_of_lt_succ ha⟩
  | jz =>
    show Sound (if m.reg a = 0 then m.jump b else m)
    split
    · exact ⟨h.sp, Nat.le_of_lt_succ hb⟩
    · exact h
  | jnz =>
    show Sound (if m.reg a = 0 then m else m.jump b)
    split
    · exact h
    · exact ⟨h.sp, Nat.le_of_lt_succ hb⟩
  | push => exact hpush _
  | pop => exact ⟨hlower.sp, h.pc⟩
  | call => exact ⟨sp_push_lt (hpush (UInt8.ofNat m.pc)).sp (UInt8.ofNat (m.pc / 256)),
      Nat.le_of_lt_succ ha⟩
  | ret =>
    have hhigh := m.top.toNat_lt
    have hlow := m.lower.top.toNat_lt
    refine ⟨sp_lower_lt hlower.sp, ?_⟩
    show m.top.toNat * 256 + m.lower.top.toNat ≤ 65535
    omega
  | _ => exact ⟨h.sp, h.pc⟩

theorem Sound.step (h : m.Sound) (hrom : rom.length ≤ 65535) : (m.step rom).Sound := by
  unfold Machine.step
  split
  · split
    · next w hw =>
      have hlt : m.pc < rom.length := (List.getElem?_eq_some_iff.1 hw).1
      have hnext : ({ m with pc := m.pc + 1 } : Machine o).Sound := ⟨h.sp, by show m.pc + 1 ≤ _; omega⟩
      exact hnext.execute w
    · exact ⟨h.sp, h.pc⟩
  · exact h

end Machine

namespace CFamily

/-! ## The cases of a program -/

/-- The cases that a program becomes. -/
def casesOfRom (rom : List RomWord) : List (Nat × List Stmt) :=
  rom.zipIdx.map fun x => (x.2, stmts x.1)

theorem map_fst_casesOfRom (rom : List RomWord) :
    (casesOfRom rom).map Prod.fst = List.range rom.length := by
  rw [casesOfRom, List.map_map]
  show rom.zipIdx.map Prod.snd = _
  rw [List.zipIdx_map_snd, List.range_eq_range']

theorem mem_casesOfRom {c : Nat × List Stmt} :
    c ∈ casesOfRom rom ↔ ∃ w, rom[c.1]? = some w ∧ c.2 = stmts w := by
  obtain ⟨k, ss⟩ := c
  constructor
  · intro hc
    obtain ⟨⟨w, i⟩, hx, heq⟩ := List.mem_map.1 hc
    obtain ⟨rfl, rfl⟩ := Prod.mk.inj heq
    exact ⟨w, List.mk_mem_zipIdx_iff_getElem?.1 hx, rfl⟩
  · rintro ⟨w, hw, hss⟩
    exact List.mem_map.2 ⟨(w, k), List.mk_mem_zipIdx_iff_getElem?.2 hw, by rw [← hss]⟩

/-- The switch finds the case of a word. -/
theorem find?_casesOfRom (k : Nat) :
    (casesOfRom rom).find? (fun c => (c.1 : Int) == (k : Int)) =
      rom[k]?.map fun w => (k, stmts w) := by
  cases hk : rom[k]? with
  | none =>
    rw [Option.map_none, List.find?_eq_none]
    intro c hc heq
    obtain ⟨w, hw, -⟩ := mem_casesOfRom.1 hc
    rw [Int.natCast_inj.1 (beq_iff_eq.1 heq), hk] at hw
    cases hw
  | some w =>
    have hmem : (k, stmts w) ∈ casesOfRom rom := mem_casesOfRom.2 ⟨w, hk, rfl⟩
    cases hc : (casesOfRom rom).find? (fun c => (c.1 : Int) == (k : Int)) with
    | none => exact absurd (beq_self_eq_true (k : Int)) (List.find?_eq_none.1 hc _ hmem)
    | some c =>
      obtain ⟨k', ss⟩ := c
      have hkey : ((k' : Int) == (k : Int)) = true :=
        List.find?_some (p := fun c : Nat × List Stmt => (c.1 : Int) == (k : Int)) hc
      obtain rfl := Int.natCast_inj.1 (beq_iff_eq.1 hkey)
      obtain ⟨w', hw', hss⟩ := mem_casesOfRom.1 (List.mem_of_find?_eq_some hc)
      rw [hk] at hw'
      obtain rfl := Option.some.inj hw'
      exact congrArg some (Prod.ext rfl hss)

/-! ## Turns of the loop -/

/-- The variables of the loop stand for a machine; where it stopped is of no account. -/
structure Store.Agrees (s : Store o) (m : Machine o) : Prop where
  bytes : s.toBytes = m.toBytes
  sp : s.sp = m.sp
  output : s.output = m.output
  running : s.running = if m.running then 1 else 0
  pc : m.running = true → s.pc = m.pc

theorem agrees_store (m : Machine o) : m.store.Agrees m :=
  ⟨rfl, rfl, rfl, rfl, fun _ => rfl⟩

theorem Store.Agrees.eq_store {s : Store o} {m : Machine o} (h : s.Agrees m)
    (hrunning : m.running = true) : s = m.store := by
  obtain ⟨bytes, pc, sp, running, output⟩ := s
  obtain ⟨hbytes, hsp, houtput, hrun, hpc⟩ := h
  rw [Machine.store, ← hrun, ← hpc hrunning]
  simp only at hbytes hsp houtput
  rw [hbytes, hsp, houtput]

section Words

variable {n : Nat} (ho : o.Valid) (hlength : rom.length ≤ 65535) (hrom : ∀ w ∈ rom, w.InRange o n)

include ho hlength hrom

/-- The case of a place in the program does what the word there does. -/
theorem execAll_case {m : Machine o} (hm : m.sp < o.stackSize) (hrunning : m.running = true)
    {c : Nat × List Stmt} (hc : c ∈ casesOfRom rom) (hpc : c.1 = m.pc) :
    execAll c.2 { m.store with pc := m.pc + 1 } = some (m.step rom).store := by
  obtain ⟨w, hw, hss⟩ := mem_casesOfRom.1 hc
  rw [hpc] at hw
  obtain ⟨hlt, hget⟩ := List.getElem?_eq_some_iff.1 hw
  have hstep : m.step rom = ({ m with pc := m.pc + 1 } : Machine o).execute w := by
    rw [Machine.step, if_pos hrunning, hw]
  have hpast : ({ m with pc := m.pc + 1 } : Machine o).pc ≤ 65535 := by
    show m.pc + 1 ≤ 65535
    omega
  rw [hss, hstep]
  exact execAll_stmts (m := { m with pc := m.pc + 1 }) ho (hrom w (hget ▸ List.getElem_mem hlt)) hm
    hpast

/-- A turn of the loop is a step of the machine. -/
theorem turn_of_agrees {m : Machine o} (hm : m.Sound) {s : Store o} (h : s.Agrees m) :
    ∃ s', s.turn (casesOfRom rom) = some s' ∧ s'.Agrees (m.step rom) := by
  cases hrunning : m.running with
  | false =>
    have hstopped : s.running = 0 := by rw [h.running, hrunning]; rfl
    have hstep : m.step rom = m := by rw [Machine.step, if_neg (by simp [hrunning])]
    refine ⟨s, by rw [Store.turn, if_pos hstopped], ?_⟩
    rwa [hstep]
  | true =>
    obtain rfl := h.eq_store hrunning
    have hrun : ¬m.store.running = 0 := by simp [Machine.store, hrunning]
    have hnext : inInt (m.store.pc + 1) = some ((m.pc : Int) + 1) := by
      have hpc := hm.pc
      exact inInt_natCast (n := m.pc + 1) (by omega)
    have hfind : (casesOfRom rom).find? (fun c => (c.1 : Int) == m.store.pc) =
        rom[m.pc]?.map fun w => (m.pc, stmts w) := find?_casesOfRom m.pc
    simp only [Store.turn, if_neg hrun, hnext, Option.bind_some, hfind]
    cases hw : rom[m.pc]? with
    | none =>
      have hstep : m.step rom = { m with running := false } := by
        rw [Machine.step, if_pos hrunning, hw]
      refine ⟨_, rfl, ?_⟩
      rw [hstep]
      exact ⟨rfl, rfl, rfl, rfl, fun h => absurd h Bool.false_ne_true⟩
    | some w =>
      have hcase : (m.pc, stmts w) ∈ casesOfRom rom := mem_casesOfRom.2 ⟨w, hw, rfl⟩
      exact ⟨_, execAll_case ho hlength hrom hm.sp hrunning hcase rfl, agrees_store _⟩

/-- Some turns of the loop are as many steps of the machine. -/
theorem turns_of_agrees (k : Nat) {m : Machine o} (hm : m.Sound) {s : Store o} (h : s.Agrees m) :
    ∃ s', s.turns (casesOfRom rom) k = some s' ∧ s'.Agrees (m.steps rom k) := by
  induction k generalizing m s with
  | zero => exact ⟨s, rfl, h⟩
  | succ k ih =>
    obtain ⟨s', hturn, h'⟩ := turn_of_agrees ho hlength hrom hm h
    obtain ⟨t, hturns, ht⟩ := ih (hm.step hlength) h'
    refine ⟨t, ?_, ht⟩
    rw [Store.turns, hturn, Option.bind_some, hturns]

end Words

/-! ## Compiled programs -/

/-- A switch over cases is a program: there is one case for each word, in the order of the words, from
    any state it does what the word does, and the loop around it goes on as the machine does, which
    begins with nothing but zeros. -/
structure Runs (o : Options) (rom : List RomWord) (cases : List (Nat × List Stmt)) : Prop where
  labels : cases.map Prod.fst = List.range rom.length
  step : ∀ m : Machine o, m.running = true → m.sp < o.stackSize → ∀ c ∈ cases, c.1 = m.pc →
    execAll c.2 { m.store with pc := m.pc + 1 } = some (m.step rom).store ∧
      (m.step rom).sp < o.stackSize
  turns : ∀ k, ∃ s, (Store.start o).turns cases k = some s ∧
    s.Agrees ((Machine.start o).steps rom k)

/-- **The loop is the program.** The text of every program that a compilation makes is a loop over its
    cases, and they do what the words of the program do. -/
theorem code_runs (d : Dialect) {t : FileTree} {path : String} {main : List Line} {c : Compilation}
    {p : Program} (h : Compilation.ofLines t path main o = .ok c) (hp : c.program = some p) :
    ∃ cases, casesOf d (code d p) = some cases ∧ Runs o p.rom cases := by
  obtain ⟨hv, -⟩ := Compilation.program_of_ofLines h hp
  obtain ⟨xs, hstands⟩ := Compilation.program_stands h hp
  have ho := Options.validate_eq_ok_iff.1 hv
  have hlength : p.rom.length ≤ 65535 := Compilation.length_rom_of_ofLines h hp
  have hrom : ∀ w ∈ p.rom, w.InRange o p.rom.length := fun w hw => hstands.inRange hw
  refine ⟨casesOfRom p.rom, casesOf_code d p, map_fst_casesOfRom p.rom, ?_, ?_⟩
  · intro m hrunning hm c hc hpc
    obtain ⟨w, hw, -⟩ := mem_casesOfRom.1 hc
    have hlt : c.1 < p.rom.length := (List.getElem?_eq_some_iff.1 hw).1
    have hsound : m.Sound := ⟨hm, by omega⟩
    exact ⟨execAll_case ho hlength hrom hm hrunning hc hpc, (hsound.step hlength).sp⟩
  · intro k
    exact turns_of_agrees ho hlength hrom k (Machine.sound_start ho)
      (agrees_store (Machine.start o))

/-- Options with a stack of one byte. -/
def oneByteStack : Options :=
  { Options.default with stackSize := 1 }

/-- A call; with such a stack it returns to the first instruction. -/
def callAndPrint : List Line :=
  Line.ofText "main" "mov &r1, -2\ncall sub\nhlt\nsub: // back\nout &r1\nret"

theorem callAndPrint_runs :
    ∃ c p cases s, Compilation.ofLines ⟨[], []⟩ "main" callAndPrint oneByteStack = .ok c ∧
      c.program = some p ∧
      p.rom = [⟨.ldi, 1, 254⟩, ⟨.call, 3, 0⟩, ⟨.hlt, 0, 0⟩, ⟨.out, 1, 0⟩, ⟨.ret, 0, 0⟩] ∧
      casesOf .c (code .c p) = some cases ∧ Runs oneByteStack p.rom cases ∧
      (Store.start oneByteStack).turns cases 7 = some s ∧ s.output = "254\n254\n" := by
  have hfacts : Includes.requests "main" callAndPrint = [] ∧
      (Compilation.fullReport oneByteStack callAndPrint []
        (.ofList (callAndPrint.filterMap Compilation.directiveMessage?) ++ .empty)).hasError =
          false ∧
      (Compilation.linked oneByteStack callAndPrint []).1.rom =
        [⟨.ldi, 1, 254⟩, ⟨.call, 3, 0⟩, ⟨.hlt, 0, 0⟩, ⟨.out, 1, 0⟩, ⟨.ret, 0, 0⟩] := by
    decide +kernel
  have houtput : ((Machine.start oneByteStack).steps [⟨.ldi, 1, 254⟩, ⟨.call, 3, 0⟩, ⟨.hlt, 0, 0⟩,
      ⟨.out, 1, 0⟩, ⟨.ret, 0, 0⟩] 7).output = "254\n254\n" := by
    decide +kernel
  obtain ⟨hrequests, he, hrom⟩ := hfacts
  obtain ⟨c, h, hp⟩ :=
    Compilation.ofLines_eq_ok_of_requests ⟨[], []⟩ (by decide +kernel) hrequests (.inl rfl) he
  obtain ⟨cases, hcases, hruns⟩ := code_runs .c h hp
  obtain ⟨s, hturns, hs⟩ := hruns.turns 7
  refine ⟨c, _, cases, s, h, hp, hrom, hcases, hruns, hturns, ?_⟩
  rw [hs.output, hrom, houtput]

end CFamily

end MacroAsm
