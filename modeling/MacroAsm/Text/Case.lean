import MacroAsm.Text.CaseTable

set_option autoImplicit false

/-! # Letter case

Code is compared in lower case, by the full mapping of the character standard: one letter becomes
two (`İ`), and a capital sigma at the end of a word becomes the final form `ς`. Operation names are
compared in upper case, where only forms written in ASCII letters can agree with a name. -/

namespace MacroAsm.Text

/-! ## Lower case -/

/-- Whether ascending ranges hold a number. -/
def inRanges : List (Nat × Nat) → Nat → Bool
  | [], _ => false
  | (lo, hi) :: rest, n => if n < lo then false else n ≤ hi || inRanges rest n

/-- How far on the lower-case form lies, by the first of the ascending runs that reaches the
    number. -/
def lowerShift : List LowerRun → Nat → Int
  | [], _ => 0
  | r :: rest, n =>
    if n < r.first then 0
    else if n ≤ r.last then (if (n - r.first) % r.step = 0 then r.shift else 0)
    else lowerShift rest n

/-- The lower-case form of one character, away from its neighbours. -/
def lowerChar (c : Char) : List Char :=
  if c.toNat < 0x80 then [c.toLower]
  else if c = 'İ' then ['i', '\u0307']
  else [Char.ofNat (c.toNat + lowerShift lowerRuns c.toNat).toNat]

/-- Whether a character is a letter of some case that is not passed over. -/
def isCased (c : Char) : Bool :=
  inRanges casedRanges c.toNat

/-- Whether a character is passed over when the neighbours of a sigma are looked at. -/
def isPassedOver (c : Char) : Bool :=
  inRanges passedOverRanges c.toNat

/-- Whether the first character that is not passed over is a letter of some case. -/
def beginsCased : List Char → Bool
  | [] => false
  | c :: cs => if isPassedOver c then beginsCased cs else isCased c

/-- Lower-case the rest of a text; `afterCased` tells whether the last character before it that is
    not passed over is a letter of some case. A sigma with a letter before it and none after it
    stands at the end of a word. -/
def lowerAfter (afterCased : Bool) : List Char → List Char
  | [] => []
  | c :: cs =>
    let form := if c = 'Σ' then [if afterCased && !beginsCased cs then 'ς' else 'σ'] else lowerChar c
    form ++ lowerAfter (if isPassedOver c then afterCased else isCased c) cs

/-- The lower-case form of a text. -/
def lower (cs : List Char) : List Char :=
  lowerAfter false cs

/-! ## Upper case -/

/-- The upper-case form of a character where that form is written in ASCII letters; any other
    character stands for itself, and occurs in no operation name. -/
def asciiUpper (c : Char) : List Char :=
  match c with
  | 'ı' => ['I']
  | 'ſ' => ['S']
  | 'ß' => ['S', 'S']
  | 'ﬀ' => ['F', 'F']
  | 'ﬁ' => ['F', 'I']
  | 'ﬂ' => ['F', 'L']
  | 'ﬃ' => ['F', 'F', 'I']
  | 'ﬄ' => ['F', 'F', 'L']
  | 'ﬅ' => ['S', 'T']
  | 'ﬆ' => ['S', 'T']
  | c => [c.toUpper]

end MacroAsm.Text
