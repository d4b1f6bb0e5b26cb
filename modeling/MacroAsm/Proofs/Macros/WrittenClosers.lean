import MacroAsm.Proofs.Macros.ArgumentClosers
import MacroAsm.Proofs.Macros.Nonempty
import MacroAsm.Proofs.Macros.Operands
import MacroAsm.Proofs.Macros.Placeholders
import MacroAsm.Proofs.Macros.Runs
import MacroAsm.Proofs.Macros.SolidOperands

set_option autoImplicit false

/-! # Closers as they are written

The closer of a block is searched in normal spacing. The closer of a macro is brought to it when the
macro is read (`Compilation.normalClosers_loadMacros`), and a line of code when it is compared, but
the operands of a use, which are filled in between, are not. Only strings can be in another spacing
(`OperandKind.normalize_of_takes`), so what closes a block is in normal spacing exactly if the strings
that it mentions are (`Expansion.Use.normalize_closer_iff`). If they are, the block ends at the line
that is its closer as it is written; if not, no line at all is its closer, and the block is reported
as not closed (`MacroTable.closes_written_iff`). -/

namespace MacroAsm

variable {macros : List Macro}

/-! ## Placeholders -/

namespace Placeholder

theorem isSolid_written {cs rest : List Char} {p : Placeholder} (h : read? cs = some (p, rest)) :
    ∀ c ∈ p.written, Text.isSolid c = true := by
  unfold read? at h
  split at h
  · cases h
    exact List.all_eq_true.1 rfl
  · split at h
    · next digits _ hread =>
      cases h
      have hdigits := Text.forall_of_readRun? hread
      exact List.forall_mem_cons.2 ⟨by decide, fun c hc => Text.isSolid_of_isDigit (hdigits c hc)⟩
    · cases h

/-- The operand that a placeholder asks for, counted from zero. -/
def index? (count : Nat) : Placeholder → Option Nat
  | .uid => none
  | .argument digits =>
    match Numeral.readDigits count .decimal digits with
    | .ok (n + 1) => some n
    | _ => none

/-- The operands that a line asks for, counted from zero. -/
def indices (line : String) (count : Nat) : List Nat :=
  (cut line).tokens.filterMap (index? count)

theorem value?_argument (args : List String) (uid : Nat) (digits : List Char) :
    value? args uid (.argument digits) = (index? args.length (.argument digits)).bind (args[·]?) := by
  unfold value? argument? index?
  dsimp only
  rcases Numeral.readDigits args.length .decimal digits with e | _ | n
  · rfl
  · rfl
  · rfl

/-- A placeholder that can be filled is filled with the operand that it asks for. -/
theorem exists_of_missing?_eq_none {args : List String} {digits : List Char}
    (h : missing? args (.argument digits) = none) (uid : Nat) :
    ∃ i w, index? args.length (.argument digits) = some i ∧ args[i]? = some w ∧
      value? args uid (.argument digits) = some w := by
  have hsome : (value? args uid (.argument digits)).isSome = true := by
    rw [missing?] at h
    split at h
    · assumption
    · cases h
  obtain ⟨w, hw⟩ := Option.isSome_iff_exists.1 hsome
  obtain ⟨i, hi, hwi⟩ := Option.bind_eq_some_iff.1 (value?_argument args uid digits ▸ hw)
  exact ⟨i, w, hi, hwi, hw⟩

end Placeholder

namespace Expansion

/-! ## What closes a block -/

/-- The strings that the closer of a use mentions are in normal spacing. -/
def Use.NormalStrings (u : Use) (closer : String) : Prop :=
  ∀ i ∈ Placeholder.indices closer u.args.length, ∀ w ∈ u.args[i]?,
    u.mac.kinds[i]? = some .quoted → Text.normalize w.toList = w.toList

instance (u : Use) (closer : String) : Decidable (u.NormalStrings closer) :=
  inferInstanceAs (Decidable (∀ i ∈ Placeholder.indices closer u.args.length, ∀ w ∈ u.args[i]?,
    u.mac.kinds[i]? = some .quoted → Text.normalize w.toList = w.toList))

section Filled

variable {u : Use} (huse : Macro.use? macros u.line.code = some (u.mac, u.args))
include huse

theorem Use.exists_kind {i : Nat} {w : String} (hw : u.args[i]? = some w) :
    ∃ k, u.mac.kinds[i]? = some k ∧ k.shape.Takes w.toList := by
  have hchars : (u.args.map String.toList)[i]? = some w.toList := by
    rw [List.getElem?_map, hw, Option.map_some]
  exact (Macro.takes_of_use? huse).exists_of_getElem? hchars

/-- What fills a placeholder of a use begins and ends with a solid character. -/
theorem Use.firm_value {p : Placeholder} (hp : Placeholder.missing? u.args p = none) (uid : Nat) :
    Text.Firm ((Placeholder.value? u.args uid p).getD "").toList := by
  cases p with
  | uid =>
    have hne : (toString uid).toList ≠ [] := by simp
    exact Text.firm_of_forall_isSolid hne (Text.isSolid_toString uid)
  | argument digits =>
    obtain ⟨i, w, -, hw, hvalue⟩ := Placeholder.exists_of_missing?_eq_none hp uid
    obtain ⟨k, -, htakes⟩ := u.exists_kind huse hw
    rw [hvalue]
    exact OperandKind.firm_of_takes htakes

/-- Of what fills the placeholders of a line only strings can be in another spacing. -/
theorem Use.normalize_value_iff {line : String}
    (hmissing : ∀ p ∈ (Placeholder.cut line).tokens, Placeholder.missing? u.args p = none)
    (uid : Nat) :
    (∀ p ∈ (Placeholder.cut line).tokens,
        Text.normalize ((Placeholder.value? u.args uid p).getD "").toList =
          ((Placeholder.value? u.args uid p).getD "").toList) ↔ u.NormalStrings line := by
  constructor
  · intro h i hi w hw _
    obtain ⟨p, hp, hindex⟩ := List.mem_filterMap.1 hi
    cases p with
    | uid => cases hindex
    | argument digits =>
      have hvalue : Placeholder.value? u.args uid (.argument digits) = some w := by
        rw [Placeholder.value?_argument, hindex]
        exact hw
      have hp' := h _ hp
      rwa [hvalue] at hp'
  · intro h p hp
    cases p with
    | uid =>
      exact (u.firm_value huse rfl uid).normalize_eq_self_iff.2
        (Text.spaced_of_forall_isSolid (Text.isSolid_toString uid))
    | argument digits =>
      obtain ⟨i, w, hindex, hw, hvalue⟩ :=
        Placeholder.exists_of_missing?_eq_none (hmissing _ hp) uid
      obtain ⟨k, hk, htakes⟩ := u.exists_kind huse hw
      rw [hvalue]
      by_cases hquoted : k = .quoted
      · subst hquoted
        exact h i (List.mem_filterMap.2 ⟨_, hp, hindex⟩) w hw hk
      · exact OperandKind.normalize_of_takes hquoted htakes

/-- **What closes a use is in normal spacing exactly if the strings that it mentions are.** -/
theorem Use.normalize_closer_iff {closer text : String} {uid : Nat}
    (hcloser : Text.normalize closer.toList = closer.toList)
    (hfill : Placeholder.fill closer u.args uid = .ok text) :
    Text.normalize text.toList = text.toList ↔ u.NormalStrings closer := by
  obtain ⟨hmissing, rfl⟩ := Placeholder.fill_eq_ok_iff.1 hfill
  have hread : (Placeholder.cut closer).fill Placeholder.written = closer.toList :=
    Text.Cut.fill_ofChars Placeholder.eq_written_append closer.toList
  have hwritten : ∀ p ∈ (Placeholder.cut closer).tokens,
      Text.Firm p.written ∧ Text.Spaced p.written := by
    intro p hp
    obtain ⟨cs, rest, hp⟩ := Text.Cut.exists_of_mem_tokens hp
    have hsolid := Placeholder.isSolid_written hp
    refine ⟨Text.firm_of_forall_isSolid ?_ hsolid, Text.spaced_of_forall_isSolid hsolid⟩
    cases p with
    | uid => exact List.cons_ne_nil _ _
    | argument digits => exact List.cons_ne_nil _ _
  rw [Text.Cut.toList_fillText, Text.Cut.normalize_fill_iff
    (fun p hp => u.firm_value huse (hmissing p hp) uid) hwritten (by rw [hread, hcloser])]
  exact u.normalize_value_iff huse hmissing uid

end Filled

/-! ## The search for a closer -/

/-- A text in normal spacing is closed by itself. -/
theorem closes_self {text : String} (h : Text.normalize text.toList = text.toList) :
    closes text text = true :=
  beq_iff_eq.2 h

/-- A text in another spacing is not what any line of code is compared as. -/
theorem not_closes {text : String} (h : Text.normalize text.toList ≠ text.toList) (code : String) :
    closes text code = false := by
  refine Bool.eq_false_iff.2 fun hcloses => h ?_
  rw [← beq_iff_eq.1 hcloses, Text.normalize_normalize]

theorem findCloser_inert {m : Macro} (hm : m ∈ macros) {text : String} {between : List Line}
    (h : ∀ l ∈ between, l.Inert macros [text]) (depth : Nat) (before tail : List Line) :
    findCloser m text depth before (between ++ tail) =
      findCloser m text depth (between.reverse ++ before) tail := by
  induction between generalizing before with
  | nil => rfl
  | cons l between ih =>
    rw [List.cons_append, findCloser_cons_inert hm (List.mem_singleton_self text)
      (h l List.mem_cons_self), ih fun k hk => h k (List.mem_cons_of_mem l hk)]
    simp

theorem findCloser_eq_none {m : Macro} {text : String}
    (h : ∀ code, closes text code = false) (depth : Nat) (before lines : List Line) :
    findCloser m text depth before lines = none := by
  induction lines generalizing depth before with
  | nil => rfl
  | cons l lines ih =>
    unfold findCloser
    rw [h l.code]
    split
    · exact ih _ _
    · exact ih _ _

/-! ## Messages -/

/-- Whether a message says that a block is not closed. -/
def IsUnclosed (x : Message) : Prop :=
  ∃ m closer l, x = unclosedMessage m closer l

theorem not_isUnclosed_placeholderMessage (e : PlaceholderError) (l : Line) :
    ¬ IsUnclosed (placeholderMessage e l) := by
  rintro ⟨m, closer, k, heq⟩
  have htext := take_text_unclosedMessage m closer k
  rw [← heq, take_text_placeholderMessage] at htext
  exact absurd htext (by decide)

theorem not_isUnclosed_of_mem_bottomLines {u : Use} {uid : Nat} {closer : Line} {x : Message}
    (hx : x ∈ (bottomLines u uid closer).2) : ¬ IsUnclosed x := by
  obtain ⟨e, rfl⟩ := exists_of_mem_bottomLines hx
  exact not_isUnclosed_placeholderMessage e _

/-! ## A block with a written closer -/

/-- A place in a run where a block is closed as it is written: so many expansions have been made, and
    the first use in what they have left wraps a block. Behind it stand lines that neither use a macro
    nor close the block, and then one whose code is the closer, filled for this use. -/
structure WrittenCloser (macros : List Macro) (source : List Line) (made : Nat)
    (reported : List Message) (kept : List Line) (u : Use) (closer text : String)
    (top between : List Line) (k : Line) (behind : List Line) : Prop where
  steps : Steps macros made 1 source (kept ++ u.line :: u.rest) reported
  not_uses : ∀ l ∈ kept, ¬ l.Uses macros
  use? : Macro.use? macros u.line.code = some (u.mac, u.args)
  wraps : u.mac.wraps = true
  closer_eq : u.mac.closer = some closer
  fill_top : fillLines u.mac.top u.args (made + 1) u.line = .ok top
  fill_closer : Placeholder.fill closer u.args (made + 1) = .ok text
  rest_eq : u.rest = between ++ k :: behind
  inert : ∀ l ∈ between, l.Inert macros [text]
  not_uses_closer : ¬ k.Uses macros
  code_eq : k.code = text

namespace WrittenCloser

variable {source kept top between behind : List Line} {made : Nat} {reported : List Message}
  {u : Use} {closer text : String} {k : Line}

theorem closerText
    (h : WrittenCloser macros source made reported kept u closer text top between k behind) :
    closerText u.mac u.args (made + 1) = .ok text := by
  unfold Expansion.closerText
  rw [h.closer_eq]
  exact h.fill_closer

theorem findCloser_eq_some
    (h : WrittenCloser macros source made reported kept u closer text top between k behind)
    (hcloses : closes text text = true) :
    findCloser u.mac text 0 [] u.rest = some ⟨between, k, behind⟩ := by
  have hm := Macro.mem_of_use? h.use?
  have hcaptures := not_captures_of_not_uses h.not_uses_closer hm
  rw [h.code_eq] at hcaptures
  rw [h.rest_eq, findCloser_inert hm h.inert]
  simp [findCloser, h.code_eq, hcaptures, hcloses]

theorem step
    (h : WrittenCloser macros source made reported kept u closer text top between k behind) :
    Steps macros (made + 1) 1 source (kept ++ (expandUse u (made + 1)).1)
      (reported ++ (expandUse u (made + 1)).2) := by
  refine h.steps.snoc ?_
  rw [Nat.add_comm 1 made]
  exact .expand ⟨rfl, h.not_uses, h.use?⟩

end WrittenCloser

end Expansion

/-! ## Macros that are read -/

/-- The closer of a macro is in normal spacing. -/
theorem Macro.normalize_closer_of_ofParts {opener : String} {closer : Option String}
    {top bottom : List String} {wraps : Bool} {m : Macro}
    (h : ofParts opener closer top bottom wraps = .ok m) :
    ∀ c ∈ m.closer, Text.normalize c.toList = c.toList := by
  have hclosers : ∀ c ∈ closer.bind closerOf, Text.normalize c.toList = c.toList := by
    intro c hc
    obtain ⟨written, -, hclose⟩ := Option.bind_eq_some_iff.1 hc
    unfold closerOf at hclose
    split at hclose
    · cases hclose
    · obtain rfl := Option.some.inj hclose
      rw [String.toList_ofList, Text.normalize_normalize]
  obtain ⟨-, o, -, rfl⟩ := ofParts_eq_ok h
  exact hclosers

/-- All closers of a table are in normal spacing. -/
def MacroTable.NormalClosers (table : MacroTable) : Prop :=
  ∀ m ∈ table.values, ∀ c ∈ m.closer, Text.normalize c.toList = c.toList

instance (table : MacroTable) : Decidable table.NormalClosers :=
  inferInstanceAs (Decidable (∀ m ∈ table.values, ∀ c ∈ m.closer,
    Text.normalize c.toList = c.toList))

/-- The closers of all macros that files define are in normal spacing. -/
theorem Compilation.normalClosers_loadMacros (files : List (List Line)) :
    (loadMacros files).1.NormalClosers :=
  forall_loadMacros (fun _ _ _ _ _ _ _ _ hm _ => Macro.normalize_closer_of_ofParts hm) files

/-- **A closer as it is written closes a block exactly if the strings in it are in normal spacing.**
    Then the expansion puts the bottom of the macro in its place, and does not report that the block
    is not closed; otherwise no line closes the block, and this is what it reports. -/
theorem MacroTable.closes_written_iff {table : MacroTable} (htable : table.NormalClosers)
    {source kept top between behind : List Line} {made : Nat} {reported : List Message}
    {u : Expansion.Use} {closer text : String} {k : Line}
    (h : Expansion.WrittenCloser table.values source made reported kept u closer text top between k
      behind)
    (hmade : made < 10000) :
    (u.block? (made + 1) = some (between, k) ↔ u.NormalStrings closer) ∧
      (u.NormalStrings closer → ∃ bottom messages,
        Expansion.bottomLines u (made + 1) k = (bottom, messages) ∧
        (∀ x ∈ messages, ¬ Expansion.IsUnclosed x) ∧
        Expansion.Steps table.values (made + 1) 1 source
          (kept ++ (top ++ between ++ bottom ++ behind)) (reported ++ messages) ∧
        reported ++ messages <+: (table.expand source).2.toList) ∧
      (¬ u.NormalStrings closer →
        u.block? (made + 1) = none ∧
        reported ++ [Expansion.unclosedMessage u.mac text u.line] <+:
          (table.expand source).2.toList) := by
  have hnormal := u.normalize_closer_iff h.use?
    (htable u.mac (Macro.mem_of_use? h.use?) closer h.closer_eq) h.fill_closer
  have hreported := table.prefix_of_steps h.step hmade
  by_cases hstrings : u.NormalStrings closer
  · have hfound := h.findCloser_eq_some (Expansion.closes_self (hnormal.2 hstrings))
    have hblock : u.block? (made + 1) = some (between, k) := by
      rw [Expansion.Use.block?, h.closerText]
      simp [hfound]
    have hexpand : Expansion.expandUse u (made + 1) =
        (top ++ between ++ (Expansion.bottomLines u (made + 1) k).1 ++ behind,
          (Expansion.bottomLines u (made + 1) k).2) := by
      simp [Expansion.expandUse, h.fill_top, h.wraps, h.closerText, hfound]
    have hsteps := h.step
    rw [hexpand] at hsteps hreported
    exact ⟨iff_of_true hblock hstrings,
      fun _ => ⟨_, _, rfl, fun x => Expansion.not_isUnclosed_of_mem_bottomLines, hsteps, hreported⟩,
      fun hnot => absurd hstrings hnot⟩
  · have hnone := Expansion.findCloser_eq_none (m := u.mac)
      (Expansion.not_closes fun heq => hstrings (hnormal.1 heq)) 0 [] u.rest
    have hblock : u.block? (made + 1) = none := by
      rw [Expansion.Use.block?, h.closerText]
      simp [hnone]
    have hexpand : Expansion.expandUse u (made + 1) =
        (u.rest, [Expansion.unclosedMessage u.mac text u.line]) := by
      simp [Expansion.expandUse, h.fill_top, h.wraps, h.closerText, hnone]
    rw [hexpand] at hreported
    exact ⟨iff_of_false (by simp [hblock]) hstrings, fun hnot => absurd hnot hstrings,
      fun _ => ⟨hblock, hreported⟩⟩

/-! ### Examples -/

namespace Forest

/-- A macro `s %string` whose closer repeats the string. -/
def quoting : Macro :=
  ⟨[.char 's', .gap, .operand .quoted], some "end %1", ["nop"], ["hlt"], true,
    some ⟨"op", 1, "#macro s %string"⟩⟩

/-- The file that defines it. -/
def quotingFile : List Line :=
  Line.ofText "op" "#macro s %string\nnop\n...\nhlt\n#endmacro end %1"

/-- The macros of this file. -/
def quotingTable : MacroTable :=
  (Compilation.loadMacros [quotingFile]).1

theorem values_quotingTable : quotingTable.values = [quoting] := by decide +kernel

/-- A use of it around a line. -/
def quotingUse (string : String) : Expansion.Use :=
  ⟨codeLine 0 ("s " ++ string), quoting, [string],
    [codeLine 1 "out", codeLine 2 ("end " ++ string)]⟩

/-- All lines of such a block. -/
def quotingLines (string : String) : List Line :=
  (quotingUse string).line :: (quotingUse string).rest

/-- A string with single spaces is found again. -/
theorem closes_singleSpace :
    (quotingUse "\"a b\"").block? 1 = some ([codeLine 1 "out"], codeLine 2 "end \"a b\"") ∧
      (quotingTable.expand (quotingLines "\"a b\"")).1.map Line.code = ["nop", "out", "hlt"] ∧
      (quotingTable.expand (quotingLines "\"a b\"")).2 = .empty := by
  have hplace : Expansion.WrittenCloser quotingTable.values (quotingLines "\"a b\"") 0 [] []
      (quotingUse "\"a b\"") "end %1" "end \"a b\"" [(quotingUse "\"a b\"").line.withCode "nop"]
      [codeLine 1 "out"] (codeLine 2 "end \"a b\"") [] := by
    rw [values_quotingTable]
    exact ⟨.refl 1 _, by decide, by decide +kernel, rfl, rfl, by decide +kernel, by decide +kernel,
      by decide +kernel, by decide +kernel, by decide +kernel, by decide +kernel⟩
  have htable : quotingTable.NormalClosers := Compilation.normalClosers_loadMacros [quotingFile]
  have hstrings : (quotingUse "\"a b\"").NormalStrings "end %1" := by decide +kernel
  have hcloses := MacroTable.closes_written_iff htable hplace (by decide)
  refine ⟨hcloses.1.2 hstrings, ?_⟩
  rw [MacroTable.expand, values_quotingTable]
  decide +kernel

/-- A string with a space behind a comma is not: the closer of the block stands where it should, but no
    line is ever compared as this text. -/
theorem not_closes_spaceBehindComma :
    quotingTable.NormalClosers ∧
      Expansion.WrittenCloser quotingTable.values (quotingLines "\"a, b\"") 0 [] []
        (quotingUse "\"a, b\"") "end %1" "end \"a, b\""
        [(quotingUse "\"a, b\"").line.withCode "nop"] [codeLine 1 "out"]
        (codeLine 2 "end \"a, b\"") [] ∧
      (quotingUse "\"a, b\"").block? 1 = none ∧
      (quotingTable.expand (quotingLines "\"a, b\"")).1.map Line.code =
        ["out", "end \"a, b\""] ∧
      (quotingTable.expand (quotingLines "\"a, b\"")).2.toList =
        [Expansion.unclosedMessage quoting "end \"a, b\"" (quotingUse "\"a, b\"").line] := by
  refine ⟨Compilation.normalClosers_loadMacros [quotingFile], ?_⟩
  rw [MacroTable.expand, values_quotingTable]
  refine ⟨⟨.refl 1 _, by decide, by decide +kernel, rfl, rfl, by decide +kernel, by decide +kernel,
    by decide +kernel, by decide +kernel, by decide +kernel, by decide +kernel⟩, ?_⟩
  decide +kernel

end Forest

end MacroAsm
