import MacroAsm.Memory.Assignment
import MacroAsm.Program.Statement
import MacroAsm.Proofs.Isa.Instructions
import MacroAsm.Proofs.Text.Cuts
import MacroAsm.Proofs.Text.LowerCase

set_option autoImplicit false

/-! # Variables of a line

The variables that a line of code uses are searched in its text, before the line is read. They are
the variable operands of the statement that the line is read as (`variablesIn_of_parse`), as code is
in lower case and no operand of an instruction is quoted. -/

namespace MacroAsm

/-- The name of a variable operand. -/
def Operand.variable? : Operand → Option String
  | .variable name => some name
  | _ => none

/-- The variables of a statement, in the order of its operands. -/
def Statement.variables : Statement → List String
  | .label _ => []
  | .instruction i => i.operands.filterMap Operand.variable?

/-! ## Names in a text -/

/-- The names behind marks in some characters. -/
def variablesOf (cs : List Char) : List (List Char) :=
  (Text.Cut.ofChars '*' readVariable? cs).tokens

/-- Text that does not prolong a name in front of it, nor begins another one. -/
def EndsName (cs : List Char) : Prop :=
  ∀ c ∈ cs.head?, Text.isBlank c = true ∨ c = ','

theorem EndsName.of_blank_append {b cs : List Char} (hb : Text.Blank b) (hcs : EndsName cs) :
    EndsName (b ++ cs) := by
  cases b with
  | nil => exact hcs
  | cons c b =>
    intro d hd
    obtain rfl := Option.some.inj hd
    exact .inl (hb c List.mem_cons_self)

theorem not_has_of_endsName {c : Char} (h : Text.isBlank c = true ∨ c = ',') :
    OperandKind.identRest.has c = false ∧ c ≠ '*' := by
  have hchar : isOperandChar c = false := by
    refine Bool.eq_false_iff.2 fun hc => ?_
    obtain ⟨hblank, hcomma, -⟩ := not_special_of_isOperandChar hc
    rcases h with h | h
    · rw [hblank] at h
      exact Bool.false_ne_true h
    · exact hcomma h
  constructor
  · refine Bool.eq_false_iff.2 fun hhas => ?_
    have hall := Text.forall_ascii (p := fun c => !OperandKind.identRest.has c || isOperandChar c)
      (by decide +kernel) (toNat_lt_of_has_identRest hhas)
    simp [hhas, hchar] at hall
  · rintro rfl
    exact absurd hchar (by decide)

/-- A name is read up to what ends it. -/
theorem readVariable?_append {c : Char} {cs rest : List Char}
    (hc : OperandKind.identStart.has c = true) (hcs : ∀ d ∈ cs, OperandKind.identRest.has d = true)
    (hrest : ∀ d ∈ rest.head?, OperandKind.identRest.has d = false) :
    readVariable? (c :: (cs ++ rest)) = some (c :: cs, rest) := by
  have htake : (cs ++ rest).takeWhile OperandKind.identRest.has = cs := by
    rw [List.takeWhile_append_of_pos hcs]
    cases rest with
    | nil => simp
    | cons d rest => rw [List.takeWhile_cons_of_neg (by simp [hrest d rfl]), List.append_nil]
  have hdrop : (cs ++ rest).dropWhile OperandKind.identRest.has = rest := by
    rw [List.dropWhile_append_of_pos hcs]
    cases rest with
    | nil => rfl
    | cons d rest => rw [List.dropWhile_cons_of_neg (by simp [hrest d rfl])]
  rw [readVariable?, if_pos hc, htake, hdrop]

/-- A marked name in lower case. -/
theorem variablesOf_name {name rest : List Char} (hname : isIdentChars name = true)
    (hlow : Text.Lowered name) (hrest : EndsName rest) :
    variablesOf ('*' :: (name ++ rest)) = name :: variablesOf rest := by
  cases name with
  | nil => simp [isIdentChars] at hname
  | cons c cs =>
    have hstart := (isIdentChars_cons.1 hname).1
    have hstar : '*' ∉ c :: cs := by
      intro hmem
      exact absurd (isIdentRest_of_mem hname hmem) (by decide)
    -- the name ends where the text behind it begins, as that is no mark and begins no other name
    have hlead : ∀ d ∈ (Text.Cut.ofChars '*' readVariable? rest).lead.head?,
        OperandKind.identRest.has d = false := by
      cases rest with
      | nil => simp [Text.Cut.ofChars]
      | cons e rest =>
        obtain ⟨hhas, hne⟩ := not_has_of_endsName (hrest e rfl)
        rw [Text.Cut.ofChars_cons_of_ne hne]
        intro d hd
        obtain rfl := Option.some.inj hd
        exact hhas
    have hread : readVariable? (Text.Cut.ofChars '*' readVariable? (c :: cs ++ rest)).lead =
        some (c :: cs, (Text.Cut.ofChars '*' readVariable? rest).lead) := by
      rw [Text.Cut.ofChars_append_of_notMem hstar]
      refine readVariable?_append ((has_identStart (hlow c List.mem_cons_self)).trans hstart)
        (fun d hd => ?_) hlead
      have hmem := List.mem_cons_of_mem c hd
      rw [has_identRest (hlow d hmem)]
      exact isIdentRest_of_mem hname hmem
    unfold variablesOf
    rw [Text.Cut.tokens_cons_of_some hread, Text.Cut.tokens_append_of_notMem hstar]

theorem variablesOf_append {a : List Char} (ha : '*' ∉ a) (cs : List Char) :
    variablesOf (a ++ cs) = variablesOf cs :=
  Text.Cut.tokens_append_of_notMem ha cs

/-- A register behind a mark is no name. -/
theorem variablesOf_pointer (cs : List Char) :
    variablesOf ('*' :: '&' :: cs) = variablesOf cs := by
  have hread : readVariable? (Text.Cut.ofChars '*' readVariable? ('&' :: cs)).lead = none := by
    rw [Text.Cut.ofChars_cons_of_ne (by decide)]
    rfl
  unfold variablesOf
  rw [Text.Cut.tokens_cons_of_none hread]
  exact variablesOf_append (a := ['&']) (by decide) cs

/-! ## Operands -/

/-- The variable of an operand, as characters. -/
def namesOf (xs : List Operand) : List (List Char) :=
  (xs.filterMap Operand.variable?).map String.toList

/-- In front of what ends a name, an operand in lower case has its own variable. -/
theorem variablesOf_operand {cs rest : List Char} {x : Operand} (hread : Operand.ofChars cs = .ok x)
    (hq : x.kind ≠ .quoted) (hlow : Text.Lowered cs) (hrest : EndsName rest) :
    variablesOf (cs ++ rest) = namesOf [x] ++ variablesOf rest := by
  have hstar {rest : List Char} {r : Register}
      (hr : Register.parse (String.ofList ('&' :: rest)) = .ok r) : '*' ∉ rest := by
    obtain ⟨ds, hds, hdigits⟩ := Register.exists_of_parse hr
    rw [String.toList_ofList] at hds
    obtain rfl := List.tail_eq_of_cons_eq hds
    have hnone : '*' ∉ ds := fun hmem => absurd (hdigits '*' hmem) (by decide)
    simpa using hnone
  cases Operand.readOff_of_ofChars hread with
  | pointer hr =>
    rw [List.cons_append, List.cons_append, variablesOf_pointer, variablesOf_append (hstar hr)]
    rfl
  | @«variable» name hname =>
    have hlow' : Text.Lowered name := fun c hc => hlow c (List.mem_cons_of_mem '*' hc)
    rw [List.cons_append, variablesOf_name hname hlow' hrest]
    simp [namesOf, Operand.variable?]
  | register hr =>
    rw [variablesOf_append (by simpa using hstar hr)]
    rfl
  | address hn =>
    rw [variablesOf_append (by simpa using Numeral.star_notMem_of_ofChars hn)]
    rfl
  | quoted => exact absurd rfl hq
  | number hn =>
    rw [variablesOf_append (Numeral.star_notMem_of_ofChars hn)]
    rfl
  | label hname =>
    rw [variablesOf_append fun hmem => absurd (isIdentRest_of_mem hname hmem) (by decide)]
    rfl

theorem star_notMem_of_blank {b : List Char} (hb : Text.Blank b) : '*' ∉ b := by
  intro hmem
  exact absurd (hb '*' hmem) (by decide)

theorem star_notMem_of_trim {cs : List Char} (h : '*' ∉ Text.trim cs) : '*' ∉ cs := by
  obtain ⟨a, b, ha, hb, hsplit, -⟩ := Text.exists_eq_append_trim cs
  rw [hsplit]
  intro hmem
  rcases List.mem_append.1 hmem with hmem | hmem
  · rcases List.mem_append.1 hmem with hmem | hmem
    · exact star_notMem_of_blank ha hmem
    · exact h hmem
  · exact star_notMem_of_blank hb hmem

/-- Blanks around an operand hold no names. -/
theorem variablesOf_part {cs rest : List Char} {x : Operand}
    (hread : Operand.parse (String.ofList (Text.trim cs)) = .ok x) (hq : x.kind ≠ .quoted)
    (hlow : Text.Lowered cs) (hrest : EndsName rest) :
    variablesOf (cs ++ rest) = namesOf [x] ++ variablesOf rest := by
  obtain ⟨a, b, ha, hb, hsplit, -⟩ := Text.exists_eq_append_trim cs
  rw [Operand.parse, String.toList_ofList, Text.trim_trim] at hread
  have hlow' : Text.Lowered (Text.trim cs) := fun c hc => hlow c (Text.mem_of_mem_trim cs hc)
  rw [hsplit, List.append_assoc, List.append_assoc, variablesOf_append (star_notMem_of_blank ha),
    variablesOf_operand hread hq hlow' (.of_blank_append hb hrest),
    variablesOf_append (star_notMem_of_blank hb)]

/-- Operands between commas have their own variables, one after the other. -/
theorem variablesOf_parts {ps : List (List Char)} {xs : List Operand} {rest : List Char}
    (hread : ps.map (fun p => Operand.parse (String.ofList (Text.trim p))) = xs.map .ok)
    (hq : ∀ x ∈ xs, x.kind ≠ .quoted) (hlow : ∀ p ∈ ps, Text.Lowered p) (hrest : EndsName rest) :
    variablesOf ([','].intercalate ps ++ rest) = namesOf xs ++ variablesOf rest := by
  have hcons (x : Operand) (xs : List Operand) : namesOf (x :: xs) = namesOf [x] ++ namesOf xs := by
    rw [namesOf, ← List.singleton_append, List.filterMap_append, List.map_append]
    rfl
  induction ps generalizing xs with
  | nil =>
    obtain rfl := List.map_eq_nil_iff.1 hread.symm
    rfl
  | cons p ps ih =>
    cases xs with
    | nil => simp at hread
    | cons x xs =>
      have hx := List.head_eq_of_cons_eq hread
      have hxs := List.tail_eq_of_cons_eq hread
      have htail := ih hxs (fun y hy => hq y (List.mem_cons_of_mem x hy))
        (fun q hmem => hlow q (List.mem_cons_of_mem p hmem))
      have hpart (rest : List Char) (hrest : EndsName rest) :
          variablesOf (p ++ rest) = namesOf [x] ++ variablesOf rest :=
        variablesOf_part hx (hq x List.mem_cons_self) (hlow p List.mem_cons_self) hrest
      rw [hcons, List.append_assoc, ← htail]
      cases ps with
      | nil => simpa using hpart rest hrest
      | cons q ps =>
        -- the comma between two operands ends the name of the first one
        rw [List.intercalate_cons_cons, List.append_assoc, List.append_assoc, hpart]
        · rw [variablesOf_append (a := [',']) (by decide)]
        · intro c hc
          obtain rfl := Option.some.inj hc
          exact .inr rfl

/-! ## Statements -/

theorem variablesIn_eq (code : String) :
    variablesIn code = (variablesOf code.toList).map String.ofList := rfl

/-- The variables that are searched in the text of an instruction are those among its operands. -/
theorem variablesIn_of_parse_instruction {code : String} {i : Instruction}
    (hlow : Text.Lowered code.toList) (h : Instruction.parse code = .ok i) :
    variablesIn code = i.operands.filterMap Operand.variable? := by
  obtain ⟨hnative, hmnemonic, hoperands⟩ := Instruction.of_parse h
  obtain ⟨pre, ps, post, htext, hpre, hpost, hparts⟩ := exists_eq_append_intercalate code
  rw [hmnemonic] at hpre
  have hread : ps.map (fun p => Operand.parse (String.ofList (Text.trim p))) =
      i.operands.map .ok := by
    rw [← hoperands, hparts, List.map_map, Function.comp_def]
  have hstar : '*' ∉ pre := by
    intro hmem
    rcases hpre '*' hmem with h | h
    · exact absurd h (by decide)
    · exact absurd (isIdentRest_of_mem_mnemonic i.op '*' h) (by decide)
  have hlow' : ∀ p ∈ ps, Text.Lowered p := by
    intro p hp c hc
    refine hlow c ?_
    rw [htext]
    exact List.mem_append_left post (List.mem_append_right pre (mem_intercalate_of_mem hp hc))
  have hends : EndsName post := fun c hc => .inl (hpost c (List.mem_of_mem_head? hc))
  have hnone : variablesOf post = [] := Text.Cut.tokens_of_notMem (star_notMem_of_blank hpost)
  rw [variablesIn_eq, htext, List.append_assoc, variablesOf_append hstar,
    variablesOf_parts hread (fun x hx => hnative.kind_ne_quoted hx) hlow' hends, hnone,
    List.append_nil, namesOf, List.map_map]
  simp [Function.comp_def]

/-- The variables that are searched in the text of a statement are those of the statement. -/
theorem variablesIn_of_parse {code : String} {s? : Option Statement}
    (hlow : Text.Lowered code.toList) (h : Statement.parse code = .ok s?) :
    variablesIn code = (s?.map Statement.variables).getD [] := by
  have hnone (hline : '*' ∉ Text.trim code.toList) : variablesIn code = [] := by
    rw [variablesIn_eq, variablesOf, Text.Cut.tokens_of_notMem (star_notMem_of_trim hline)]
    rfl
  unfold Statement.parse at h
  dsimp only at h
  split at h
  · next hempty =>
    obtain rfl := Except.ok.inj h
    refine hnone ?_
    rw [List.getLast?_eq_none_iff.1 hempty]
    exact List.not_mem_nil
  · next hcolon =>
    split at h
    · next hident =>
      obtain rfl := Except.ok.inj h
      refine hnone fun hmem => ?_
      obtain ⟨cs, hcs⟩ := List.getLast?_eq_some_iff.1 hcolon
      rw [hcs, List.dropLast_concat] at hident
      rw [hcs] at hmem
      have hname : '*' ∉ cs :=
        star_notMem_of_trim fun hmem => absurd (isIdentRest_of_mem hident hmem) (by decide)
      rcases List.mem_append.1 hmem with hmem | hmem
      · exact hname hmem
      · exact absurd (List.mem_singleton.1 hmem) (by decide)
    · simp at h
  · split at h
    · next i hi =>
      obtain rfl := Except.ok.inj h
      exact variablesIn_of_parse_instruction hlow hi
    · simp at h

end MacroAsm
