set_option autoImplicit false

/-! # White space

Blank characters are those of the character standard, not the ASCII ones alone. Texts are trimmed,
cut into words and brought to single spaces by these functions on lists of characters; each is a
library operator or one fold from the right, so that its laws are one induction away. -/

namespace MacroAsm.Text

/-- White space: the six controls and the space of ASCII, the next-line control, the no-break space
    and the spaces and separators of the general planes. -/
def isBlank (c : Char) : Bool :=
  let n := c.toNat
  n == 0x20 || (0x9 ≤ n && n ≤ 0xD) || n == 0x85 || n == 0xA0 || n == 0x1680 ||
    (0x2000 ≤ n && n ≤ 0x200A) || n == 0x2028 || n == 0x2029 || n == 0x202F || n == 0x205F ||
    n == 0x3000

/-! ## Trimming -/

/-- The text without the blanks it starts with. -/
def trimStart (cs : List Char) : List Char :=
  cs.dropWhile isBlank

/-- The text without the blanks it ends with. Most texts end with none. -/
def trimEnd (cs : List Char) : List Char :=
  if cs.getLast?.any isBlank then (cs.reverse.dropWhile isBlank).reverse else cs

theorem trimEnd_eq (cs : List Char) : trimEnd cs = (cs.reverse.dropWhile isBlank).reverse := by
  unfold trimEnd
  split
  · rfl
  · next h =>
    rw [List.getLast?_eq_head?_reverse] at h
    cases hr : cs.reverse with
    | nil => simpa using hr
    | cons c r =>
      have hc : isBlank c = false := by simpa [hr] using h
      rw [List.dropWhile_cons_of_neg (by simp [hc]), ← hr, List.reverse_reverse]

/-- The text without blanks at either end. -/
def trim (cs : List Char) : List Char :=
  trimEnd (trimStart cs)

@[simp] theorem trim_nil : trim [] = [] := rfl

/-! ## Words -/

/-- The longest stretches without a blank, in order. -/
def words (cs : List Char) : List (List Char) :=
  (cs.splitOnP isBlank).filter (fun w => !w.isEmpty)

/-- The text up to its first blank and the text after that blank, if it has one. -/
def splitAtBlank (cs : List Char) : Option (List Char × List Char) :=
  match cs.dropWhile (fun c => !isBlank c) with
  | [] => none
  | _ :: rest => some (cs.takeWhile (fun c => !isBlank c), rest)

/-! ## Single spaces -/

/-- Put one more character in front of a text whose blanks are single spaces. -/
def collapseStep (c : Char) (rest : List Char) : List Char :=
  if isBlank c then
    match rest with
    | ' ' :: _ => rest
    | _ => ' ' :: rest
  else c :: rest

/-- Every stretch of blanks becomes one space. -/
def collapse (cs : List Char) : List Char :=
  cs.foldr collapseStep []

/-- Put one more character in front of a text that has no blank beside a comma. -/
def tightenStep (c : Char) (rest : List Char) : List Char :=
  if c = ',' then ',' :: trimStart rest
  else if isBlank c then
    match rest with
    | ',' :: _ => rest
    | _ => c :: rest
  else c :: rest

/-- Blanks before and after commas are dropped. -/
def tighten (cs : List Char) : List Char :=
  cs.foldr tightenStep []

/-- The spacing in which texts are compared: trimmed, single spaces, none beside a comma. -/
def normalize (cs : List Char) : List Char :=
  tighten (collapse (trim cs))

end MacroAsm.Text
