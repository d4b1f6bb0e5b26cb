import MacroAsm.Proofs.Compilation.SameStatements
import MacroAsm.Proofs.Memory.Addressed
import MacroAsm.Proofs.Program.Resolving

set_option autoImplicit false

/-! # Addresses of the variables in use

The variables in use are searched in the text of the code, before any statement is read. Where all
code can be read they are the variables of its instructions, so a code whose variables were given
addresses without an error is linked without a variable that has none
(`Compilation.usedVariables_addressed`). A line that is no statement may still hold a name behind a
mark, and such a name is given an address too (`Compilation.unreadableUse_addressed`). -/

namespace MacroAsm

/-! ## Names in the code -/

theorem mem_variablesOfLines {lines : List Line} {name : String} :
    name ∈ variablesOfLines lines ↔ ∃ l ∈ lines, name ∈ variablesIn l.code :=
  List.mem_flatMap

/-- A name in the code is a variable of a statement, or stands on a line that cannot be read. -/
theorem exists_of_mem_variablesIn {code : List Line} (hlow : ∀ l ∈ code, l.Lowered) {l : Line}
    (hl : l ∈ code) {name : String} (hname : name ∈ variablesIn l.code) :
    (∃ s ∈ statementsOf code, name ∈ s.variables) ∨ ∃ e, Statement.parse l.code = .error e := by
  cases hparse : Statement.parse l.code with
  | error e => exact .inr ⟨e, rfl⟩
  | ok s? =>
    rw [variablesIn_of_parse (hlow l hl) hparse] at hname
    cases s? with
    | none => exact absurd hname List.not_mem_nil
    | some s =>
      have hstatement : l.statement? = some s := by simp only [Line.statement?, hparse]
      exact .inl ⟨s, List.mem_filterMap.2 ⟨l, hl, hstatement⟩, hname⟩

/-- A variable operand of an instruction of the code is in use. -/
theorem mem_names_usedVariables_of_parse {code : List Line} (hlow : ∀ l ∈ code, l.Lowered)
    {l : Line} (hl : l ∈ code) {i : Instruction}
    (hparse : Statement.parse l.code = .ok (some (.instruction i))) {name : String}
    (hname : Operand.variable name ∈ i.operands) : name ∈ (usedVariables code).names := by
  rw [names_usedVariables_eq_eraseDups, List.mem_eraseDups, mem_variablesOfLines]
  refine ⟨l, hl, ?_⟩
  rw [variablesIn_of_parse (hlow l hl) hparse]
  exact List.mem_filterMap.2 ⟨_, hname, rfl⟩

namespace Compilation

variable {o : Options} {main : List Line} {files : List (List Line)}

/-! ## Addresses -/

/-- When addresses were given without an error, no instruction is without one. -/
theorem text_ne_noAddress (hlow : ∀ l ∈ (expanded main files).1, l.Lowered)
    (h : (assigned o main files).2.hasError = false) {m : Message}
    (hm : m ∈ (linked o main files).2.toList) (name : String) :
    m.text ≠ (ResolveError.noAddress name).message := by
  intro htext
  obtain ⟨l, hl, x, i, hparse, hx, hnone⟩ := Program.exists_of_noAddress hm htext
  have hused := mem_names_usedVariables_of_parse hlow hl hparse hx
  have haddress := Layout.mem_names_assign (Layout.find_addressed main) h hused
  obtain ⟨a, ha⟩ := Option.isSome_iff_exists.1 (Registry.mem_names.1 haddress)
  exact absurd (ha.symm.trans hnone) (by simp)

/-- Where the code says which variables there are, an address belongs to a variable of a statement,
    or to a name on a line that is no statement. -/
theorem exists_of_mem_names_assigned (hlow : ∀ l ∈ (expanded main files).1, l.Lowered)
    (hkind : (Layout.find main).1.kind = .staticAuto) {name : String}
    (hname : name ∈ (assigned o main files).1.names) :
    (∃ s ∈ statementsOf (expanded main files).1, name ∈ s.variables) ∨
      ∃ l ∈ (expanded main files).1, (∃ e, Statement.parse l.code = .error e) ∧
        name ∈ variablesIn l.code := by
  have hused := Layout.mem_names_usedVariables hkind hname
  rw [names_usedVariables_eq_eraseDups, List.mem_eraseDups, mem_variablesOfLines] at hused
  obtain ⟨l, hl, hmem⟩ := hused
  rcases exists_of_mem_variablesIn hlow hl hmem with h | h
  · exact .inl h
  · exact .inr ⟨l, hl, h, hmem⟩

/-- The variables in use of code that can be read are those of its instructions, first uses first.
    Hence, whatever the sources, the layout and the options: addresses that were given without an
    error leave no instruction without one, and where the code says which variables there are, no
    address belongs to a name that neither an instruction uses nor an unreadable line holds. -/
theorem usedVariables_addressed :
    (∀ code : List Line, (∀ l ∈ code, l.Lowered) →
      (∀ l ∈ code, ∃ s?, Statement.parse l.code = .ok s?) →
      (usedVariables code).names = ((statementsOf code).flatMap Statement.variables).eraseDups) ∧
    ∀ (o : Options) (t : FileTree) (path text : String) (found : Includes.Collection),
      Includes.collect t path (Line.ofText path text) = .ok found →
      let main := Line.ofText path text
      let files := found.files.toList.map Includes.Loaded.lines
      ((assigned o main files).2.hasError = false →
        ∀ m ∈ (linked o main files).2.toList, ∀ name,
          m.text ≠ (ResolveError.noAddress name).message) ∧
      ((Layout.find main).1.kind = .staticAuto →
        ∀ name ∈ (assigned o main files).1.names,
          (∃ s ∈ statementsOf (expanded main files).1, name ∈ s.variables) ∨
            ∃ l ∈ (expanded main files).1, (∃ e, Statement.parse l.code = .error e) ∧
              name ∈ variablesIn l.code) := by
  refine ⟨fun code hlow hread => ?_, fun o t path text found hfound => ⟨?_, ?_⟩⟩
  · rw [names_usedVariables_eq_eraseDups, variablesOfLines_eq_flatMap hlow hread]
  · exact fun h m hm name => text_ne_noAddress (lowered_expanded hfound) h hm name
  · exact fun hkind name hname => exists_of_mem_names_assigned (lowered_expanded hfound) hkind hname

/-- Two variables, one of them used twice, and a jump to a label that is not there. -/
def lostJump : List Line :=
  Line.ofText "main" "mov *y, &r1\nmov &r2, *x\nmov *y, &r3\njmp away"

/-- They get addresses, and the label is all that is reported when the program is linked. -/
theorem lostJump_addressed :
    (usedVariables lostJump).names = ["y", "x"] ∧
      (assigned .default lostJump []).2.hasError = false ∧
      (linked .default lostJump []).2.toList.map Message.text = ["Undefined label `away`"] ∧
      (∀ m ∈ (linked .default lostJump []).2.toList, ∀ name,
        m.text ≠ (ResolveError.noAddress name).message) ∧
      (assigned .default lostJump []).1.names = ["y", "x"] ∧
      ∀ name ∈ (assigned .default lostJump []).1.names,
        (∃ s ∈ statementsOf (expanded lostJump []).1, name ∈ s.variables) ∨
          ∃ l ∈ (expanded lostJump []).1, (∃ e, Statement.parse l.code = .error e) ∧
            name ∈ variablesIn l.code := by
  have hfacts : (∀ l ∈ lostJump, (Statement.parse l.code).isOk = true) ∧
      ((statementsOf lostJump).flatMap Statement.variables).eraseDups = ["y", "x"] ∧
      (assigned .default lostJump []).2.hasError = false ∧
      (linked .default lostJump []).2.toList.map Message.text = ["Undefined label `away`"] ∧
      (Layout.find lostJump).1.kind = .staticAuto ∧
      (assigned .default lostJump []).1.names = ["y", "x"] ∧
      Includes.requests "main" lostJump = [] := by
    decide +kernel
  obtain ⟨hread, hvariables, hassigned, htexts, hkind, hnames, hrequests⟩ := hfacts
  have hlow : ∀ l ∈ lostJump, l.Lowered := fun l => Line.lowered_of_mem_ofText
  have hparse : ∀ l ∈ lostJump, ∃ s?, Statement.parse l.code = .ok s? := by
    intro l hl
    have hok := hread l hl
    cases hs : Statement.parse l.code with
    | ok s? => exact ⟨s?, rfl⟩
    | error e => simp [hs, Except.isOk, Except.toBool] at hok
  obtain ⟨hlink, hspent⟩ := usedVariables_addressed.2 .default ⟨[], []⟩ "main" _ _
    (Includes.collect_eq_ok ⟨[], []⟩ hrequests)
  exact ⟨(usedVariables_addressed.1 lostJump hlow hparse).trans hvariables, hassigned, htexts,
    hlink hassigned, hnames, hspent hkind⟩

/-- A line that is no statement, with a name behind a mark. -/
def unreadableUse : List Line :=
  Line.ofText "main" "#memorylayout static auto incremental\nfoo *bar"

/-- The name is given an address, though there is no instruction that could use it. -/
theorem unreadableUse_addressed :
    (Layout.find unreadableUse).1.kind = .staticAuto ∧
      (assigned .default unreadableUse []).1.find? "bar" = some 0 ∧
      ¬ ∀ name ∈ (assigned .default unreadableUse []).1.names,
        ∃ s ∈ statementsOf (expanded unreadableUse []).1, name ∈ s.variables := by
  decide +kernel

end Compilation

end MacroAsm
