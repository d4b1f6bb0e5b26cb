import MacroAsm.Proofs.X86.Reading

set_option autoImplicit false

/-! # Putting a text into memory

A text whose names are all different can be put into memory (`Loading.laid_image`): each operation gets
a place of its own, wide enough for the data behind a label, and the names stand for the places of what
follows them or for their numbers. -/

namespace MacroAsm

namespace X86

open Assembly

namespace Loading

/-! ## Names and code -/

/-- The place of an operation. -/
def spot (i : Nat) : Word :=
  BitVec.ofNat 64 (1048576 * (i + 1))

/-- A memory without a program. -/
def blank : Image where
  code := fun _ => none
  symbol := fun _ => 0
  linked := fun _ s => s

/-- What the names of a text stand for, its first operation being the one with this number. -/
def bindings : String → List Element → Nat → List (String × Word)
  | _, [], _ => []
  | scope, .label name :: es, i =>
    (qualify scope name, (blank.equated? es).getD (spot i)) ::
      bindings (if name.toList.head? = some '.' then scope else name) es i
  | scope, .operation mnemonic args :: es, i =>
    (blank.replaced? mnemonic args).toList ++ bindings scope es (i + 1)

/-- The names that stand for something. -/
def names : String → List Element → List String
  | _, [] => []
  | scope, .label name :: es =>
    qualify scope name :: names (if name.toList.head? = some '.' then scope else name) es
  | scope, .operation mnemonic args :: es =>
    ((blank.replaced? mnemonic args).map Prod.fst).toList ++ names scope es

/-- The global label that elements leave behind them. -/
def scopeBehind : String → List Element → String
  | scope, [] => scope
  | scope, .label name :: es =>
    scopeBehind (if name.toList.head? = some '.' then scope else name) es
  | scope, .operation _ _ :: es => scopeBehind scope es

/-- The instructions that the operations of a text are read as. -/
def readings : String → List Element → List (Option Instr)
  | _, [] => []
  | scope, .label name :: es =>
    readings (if name.toList.head? = some '.' then scope else name) es
  | scope, .operation mnemonic args :: es => instr? scope mnemonic args :: readings scope es

/-- Whether a name that stands for a number gets it as a number. -/
def isClosed : Element → Bool
  | .operation "equ" [arg] => (number? arg.toList).isSome
  | .operation "%define" [text] =>
    (number? (Text.trimStart (text.toList.dropWhile isNameChar))).isSome
  | _ => true

/-- A text in memory, with what linked functions do. -/
def image (es : List Element) (linked : String → State → State) : Image where
  code := fun a =>
    let i := a.toNat / 1048576 - 1
    if a = spot i then ((readings "" es)[i]?.join).map fun x => (x, spot (i + 1)) else none
  symbol := fun name => ((bindings "" es 0).lookup name).getD 0
  linked := linked

/-! ## Names -/

theorem map_fst_bindings (scope : String) (es : List Element) (i : Nat) :
    (bindings scope es i).map Prod.fst = names scope es := by
  induction es generalizing scope i with
  | nil => rfl
  | cons e es ih =>
    cases e with
    | label name => rw [bindings, names, List.map_cons, ih]
    | operation mnemonic args =>
      rw [bindings, names, List.map_append, ih]
      cases blank.replaced? mnemonic args <;> rfl

theorem names_append (scope : String) (es rest : List Element) :
    names scope (es ++ rest) = names scope es ++ names (scopeBehind scope es) rest := by
  induction es generalizing scope with
  | nil => rfl
  | cons e es ih =>
    cases e with
    | label name => rw [List.cons_append, names, names, ih, scopeBehind, List.cons_append]
    | operation mnemonic args =>
      rw [List.cons_append, names, names, ih, scopeBehind, List.append_assoc]

/-- Global labels are names as they are. -/
theorem names_eq_labels {scope : String} {es : List Element}
    (hglobal : ∀ name, .label name ∈ es → name.toList.head? ≠ some '.')
    (hreplaced : ∀ m args, .operation m args ∈ es → blank.replaced? m args = none) :
    names scope es = es.filterMap Element.label? := by
  induction es generalizing scope with
  | nil => rfl
  | cons e es ih =>
    have hrest (scope : String) : names scope es = es.filterMap Element.label? :=
      ih (fun name hname => hglobal name (List.mem_cons_of_mem _ hname))
        fun m args hm => hreplaced m args (List.mem_cons_of_mem _ hm)
    cases e with
    | label name =>
      rw [names, qualify, if_neg (hglobal name List.mem_cons_self), hrest,
        List.filterMap_cons_some (Element.label?_label name)]
    | operation m args =>
      rw [names, hreplaced m args List.mem_cons_self, hrest,
        List.filterMap_cons_none (Element.label?_operation m args)]
      rfl

/-! ## The text is there -/

variable {es : List Element} {linked : String → State → State}

theorem toNat_spot {i : Nat} (hi : i < 2 ^ 43) : (spot i).toNat = 1048576 * (i + 1) := by
  rw [spot, BitVec.toNat_ofNat, Nat.mod_eq_of_lt]
  omega

theorem code_spot {i : Nat} (hi : i < 2 ^ 43) {x : Instr}
    (hx : (readings "" es)[i]? = some (some x)) :
    (image es linked).code (spot i) = some (x, spot (i + 1)) := by
  have hindex : (spot i).toNat / 1048576 - 1 = i := by
    rw [toNat_spot hi]
    omega
  simp [image, hindex, hx]

theorem symbol_of_mem (hnames : (names "" es).Nodup) {x : String × Word}
    (hx : x ∈ bindings "" es 0) : (image es linked).symbol x.1 = x.2 := by
  obtain ⟨pre, post, heq⟩ := List.append_of_mem hx
  have hlookup : (bindings "" es 0).lookup x.1 = some x.2 := by
    refine List.lookup_eq_some_iff.2 ⟨pre, post, heq, fun y hy => ?_⟩
    rw [← map_fst_bindings "" es 0, heq, List.map_append, List.map_cons] at hnames
    have hdisjoint := (List.nodup_append.1 hnames).2.2 y.1 (List.mem_map.2 ⟨y, hy, rfl⟩) x.1
      List.mem_cons_self
    exact bne_iff_ne.2 (Ne.symm hdisjoint)
  rw [image]
  simp [hlookup]

/-- Numbers do not depend on what names stand for. -/
theorem equated?_eq {im : Image} {e : Element} (he : isClosed e = true) (es : List Element) :
    im.equated? (e :: es) = blank.equated? (e :: es) := by
  unfold Image.equated?
  split
  · next arg _ heq =>
    obtain ⟨rfl, -⟩ := List.cons.inj heq
    obtain ⟨n, hn⟩ := Option.isSome_iff_exists.1 he
    simp [Image.value, hn]
  · rfl

theorem replaced?_eq {im : Image} {mnemonic : String} {args : List String}
    (he : isClosed (.operation mnemonic args) = true) :
    im.replaced? mnemonic args = blank.replaced? mnemonic args := by
  unfold Image.replaced?
  split
  · next text =>
    obtain ⟨n, hn⟩ := Option.isSome_iff_exists.1 he
    simp [Image.value, hn]
  · rfl

/-- The text stands at its places if the names and the code there are its own. -/
theorem laid_of_bindings {im : Image} {scope : String} {i : Nat}
    (hclosed : ∀ e ∈ es, isClosed e = true)
    (hnames : ∀ x ∈ bindings scope es i, im.symbol x.1 = x.2)
    (hcode : ∀ (j : Nat) (x : Instr), (readings scope es)[j]? = some (some x) →
      im.code (spot (i + j)) = some (x, spot (i + j + 1))) : im.Laid scope es (spot i) := by
  induction es generalizing scope i with
  | nil => trivial
  | cons e es ih =>
    have hrest : ∀ e ∈ es, isClosed e = true := fun e he => hclosed e (List.mem_cons_of_mem _ he)
    cases e with
    | label name =>
      refine ⟨?_, ih hrest (fun x hx => hnames x (List.mem_cons_of_mem _ hx)) hcode⟩
      have hnumber : im.equated? es = blank.equated? es := by
        cases es with
        | nil => rfl
        | cons e' es => exact equated?_eq (hrest e' List.mem_cons_self) es
      rw [hnames _ List.mem_cons_self, hnumber]
    | operation mnemonic args =>
      refine ⟨?_, spot (i + 1), fun x hx => hcode 0 x (congrArg some hx), ?_⟩
      · rw [replaced?_eq (hclosed _ List.mem_cons_self)]
        exact fun x hx => hnames x (List.mem_append_left _ (by simpa using hx))
      · refine ih hrest (fun x hx => hnames x (List.mem_append_right _ hx)) fun j x hx => ?_
        have hplace : i + 1 + j = i + (j + 1) := by omega
        rw [hplace]
        exact hcode (j + 1) x hx

theorem length_readings (scope : String) (es : List Element) :
    (readings scope es).length ≤ es.length := by
  induction es generalizing scope with
  | nil => exact Nat.le_refl 0
  | cons e es ih =>
    cases e with
    | label name => exact Nat.le_succ_of_le (ih _)
    | operation mnemonic args => exact Nat.succ_le_succ (ih _)

/-- A text whose names are all different stands in its image. -/
theorem laid_image (hlength : es.length < 2 ^ 43) (hclosed : ∀ e ∈ es, isClosed e = true)
    (hnames : (names "" es).Nodup) :
    (image es linked).Laid "" es (spot 0) := by
  refine laid_of_bindings hclosed (fun x hx => symbol_of_mem hnames hx) fun j x hx => ?_
  have hj : j < (readings "" es).length := (List.getElem?_eq_some_iff.1 hx).1
  have hle := length_readings "" es
  rw [Nat.zero_add]
  exact code_spot (by omega) hx

/-! ## Data lie apart -/

/-- The number of operations. -/
def operationCount (es : List Element) : Nat :=
  es.countP (·.label?.isNone)

/-- A global label stands for its number, or for the place of the operation behind it. -/
theorem mem_bindings {scope name : String} {post : List Element} (pre : List Element) (i : Nat)
    (hglobal : name.toList.head? ≠ some '.') :
    (name, (blank.equated? post).getD (spot (i + operationCount pre))) ∈
      bindings scope (pre ++ .label name :: post) i := by
  induction pre generalizing scope i with
  | nil =>
    rw [List.nil_append, bindings, qualify, if_neg hglobal]
    exact List.mem_cons_self
  | cons e pre ih =>
    cases e with
    | label x => exact List.mem_cons_of_mem _ (ih i)
    | operation m args =>
      have hcount : operationCount (.operation m args :: pre) = operationCount pre + 1 :=
        List.countP_cons_of_pos rfl
      have hplace : i + (operationCount pre + 1) = i + 1 + operationCount pre := by omega
      rw [hcount, hplace]
      exact List.mem_append_right _ (ih (i + 1))

/-- Data come behind a label at once if there are any. -/
theorem exists_datum {im : Image} (h : im.extent es ≠ 0) :
    (∃ m args rest, es = .operation m args :: rest) ∧
      ∀ im' : Image, im'.equated? es = none := by
  cases es with
  | nil => exact absurd rfl h
  | cons e rest =>
    cases e with
    | label name => exact absurd rfl h
    | operation m args =>
      refine ⟨⟨m, args, rest, rfl⟩, fun im' => ?_⟩
      unfold Image.equated?
      split
      · next heq =>
        cases heq
        exact absurd rfl h
      · rfl

/-- Where data begin. -/
theorem exists_place (hnames : (names "" es).Nodup) {name : String}
    (hname : .label name ∈ es) (hglobal : name.toList.head? ≠ some '.')
    (hdata : (image es linked).extent (after es name) ≠ 0) :
    ∃ pre, es = pre ++ .label name :: after es name ∧
      (image es linked).symbol name = spot (operationCount pre) := by
  obtain ⟨pre, hpre⟩ := exists_after hname
  have hnumber : blank.equated? (after es name) = none := (exists_datum hdata).2 blank
  have hmem : (name, (blank.equated? (after es name)).getD (spot (0 + operationCount pre))) ∈
      bindings "" (pre ++ .label name :: after es name) 0 := mem_bindings pre 0 hglobal
  rw [← hpre, hnumber, Option.getD_none, Nat.zero_add] at hmem
  exact ⟨pre, hpre, symbol_of_mem hnames hmem⟩

/-- What a text has to be like besides. -/
structure Loadable (es : List Element) (linked : String → State → State) : Prop where
  length : es.length < 2 ^ 40
  closed : ∀ e ∈ es, isClosed e = true
  names : (names "" es).Nodup
  /-- Data fit between two places, and belong to global labels. -/
  extent : ∀ {x : String}, .label x ∈ es → (image es linked).extent (after es x) ≤ 1048576
  global : ∀ {x : String}, .label x ∈ es → (image es linked).extent (after es x) ≠ 0 →
    x.toList.head? ≠ some '.'

theorem apart_of_lt {i j m n : Nat} (hij : i < j) (hj : j < 2 ^ 40) (hm : m ≤ 1048576)
    (hn : n ≤ 1048576) : (Region.mk (spot i) m).Apart ⟨spot j, n⟩ := by
  have hi := toNat_spot (i := i) (by omega)
  have hj' := toNat_spot (i := j) (by omega)
  exact Region.apart_of_le (by show (spot i).toNat + m ≤ (spot j).toNat; omega)
    (by show (spot j).toNat + n ≤ 2 ^ 64; omega)

theorem apart_of_empty {r s : Region} (h : r.size = 0) : r.Apart s := by
  intro a ha
  rw [Region.Has, h] at ha
  exact absurd ha (Nat.not_lt_zero _)

/-- Data behind a label in front of another one end before those behind the other. -/
theorem Loadable.apart_of_append (h : Loadable es linked) {x y : String} {pre mid : List Element}
    (hx : es = pre ++ .label x :: after es x) (hy : after es x = mid ++ .label y :: after es y)
    (hdata : (image es linked).extent (after es x) ≠ 0)
    (hpx : (image es linked).symbol x = spot (operationCount pre))
    (hpy : (image es linked).symbol y = spot (operationCount (pre ++ .label x :: mid))) :
    ((image es linked).object es x).Apart ((image es linked).object es y) := by
  have hxmem : .label x ∈ es := by
    rw [hx]
    simp
  have hymem : .label y ∈ es := by
    rw [hx, hy]
    simp
  -- an operation stands between the labels
  obtain ⟨⟨m, args, rest, hafter⟩, -⟩ := exists_datum hdata
  have hmid : 0 < operationCount mid := by
    cases mid with
    | nil =>
      rw [hafter] at hy
      cases hy
    | cons e mid =>
      rw [hafter, List.cons_append] at hy
      obtain ⟨rfl, -⟩ := List.cons.inj hy
      exact List.countP_pos_iff.2 ⟨_, List.mem_cons_self, rfl⟩
  have hcount : operationCount (pre ++ .label x :: mid) = operationCount pre + operationCount mid := by
    rw [operationCount, List.countP_append, List.countP_cons_of_neg (by simp)]
    rfl
  have hbound : operationCount (pre ++ .label x :: mid) ≤ es.length := by
    have hlength := congrArg List.length hx
    rw [hy] at hlength
    have hle : operationCount (pre ++ .label x :: mid) ≤ (pre ++ .label x :: mid).length :=
      List.countP_le_length
    simp only [List.length_append, List.length_cons] at hlength hle ⊢
    omega
  have hlength := h.length
  rw [Image.object, Image.object, hpx, hpy]
  exact apart_of_lt (by omega) (by omega) (h.extent hxmem) (h.extent hymem)

theorem Loadable.apart (h : Loadable es linked) {x y : String} (hx : .label x ∈ es)
    (hy : .label y ∈ es) (hxy : x ≠ y) :
    ((image es linked).object es x).Apart ((image es linked).object es y) := by
  by_cases hdx : (image es linked).extent (after es x) = 0
  · exact apart_of_empty hdx
  by_cases hdy : (image es linked).extent (after es y) = 0
  · exact (apart_of_empty hdy).symm
  obtain ⟨pre, hpre, hpx⟩ := exists_place h.names hx (h.global hx hdx) hdx
  obtain ⟨pre', hpre', hpy⟩ := exists_place h.names hy (h.global hy hdy) hdy
  rcases List.append_eq_append_iff.1 (hpre.symm.trans hpre') with ⟨mid, hmid, hrest⟩ | ⟨mid, hmid, hrest⟩
  · cases mid with
    | nil =>
      obtain ⟨hlabel, -⟩ := List.cons.inj hrest
      exact absurd (Element.label.inj hlabel) hxy
    | cons e mid =>
      obtain ⟨rfl, hafter⟩ := List.cons.inj (hrest.trans (List.cons_append ..))
      exact h.apart_of_append hpre hafter hdx hpx (hmid ▸ hpy)
  · cases mid with
    | nil =>
      obtain ⟨hlabel, -⟩ := List.cons.inj hrest
      exact absurd (Element.label.inj hlabel).symm hxy
    | cons e mid =>
      obtain ⟨rfl, hafter⟩ := List.cons.inj (hrest.trans (List.cons_append ..))
      exact (h.apart_of_append hpre' hafter hdy hpy (hmid ▸ hpx)).symm

/-- **A text whose names are all different can be put into memory.** -/
theorem Loadable.assembles (h : Loadable es linked) {stack : Region}
    (hstack : 2 ^ 62 ≤ stack.base.toNat) (hend : stack.base.toNat + stack.size ≤ 2 ^ 64) :
    (image es linked).Assembles es stack := by
  have hlength := h.length
  refine ⟨⟨spot 0, laid_image (by omega) h.closed h.names⟩, h.apart, fun {x} hx => ?_⟩
  by_cases hdx : (image es linked).extent (after es x) = 0
  · exact apart_of_empty hdx
  obtain ⟨pre, hpre, hpx⟩ := exists_place h.names hx (h.global hx hdx) hdx
  have hbound : operationCount pre ≤ es.length := by
    have heq := congrArg List.length hpre
    have hle : operationCount pre ≤ pre.length := List.countP_le_length
    simp only [List.length_append, List.length_cons] at heq
    omega
  have hextent := h.extent hx
  have hspot := toNat_spot (i := operationCount pre) (by omega)
  refine Region.apart_of_le ?_ hend
  show ((image es linked).symbol x).toNat + (image es linked).extent (after es x) ≤ _
  rw [hpx, hspot]
  omega

end Loading

end X86

end MacroAsm
