import MacroAsm.Text.Blank

set_option autoImplicit false

/-! # Shapes of text

The small pattern language in which operand kinds are described: characters, character classes,
their repetitions, sequence and choice. A shape is written in the usual notation (`Shape.written`),
and a text is read against it one character after the other: `Shape.after` lists what may be left of
a shape behind a character, what is preferred first. A repetition prefers to go on, and a choice
prefers its left side. -/

namespace MacroAsm.Text

/-! ## Character classes -/

/-- The characters of some ranges, or with `outside` those of none of them. -/
structure CharSet where
  outside : Bool
  ranges : List (Char × Char)
  deriving DecidableEq

namespace CharSet

/-- Whether a class holds a character. -/
def has (s : CharSet) (c : Char) : Bool :=
  (s.ranges.any fun r => r.1 ≤ c && c ≤ r.2) != s.outside

/-- A class in brackets, its ranges in order and a range of one character as that character. -/
def written (s : CharSet) : List Char :=
  '[' :: (if s.outside then ['^'] else []) ++
    s.ranges.flatMap (fun r => if r.1 = r.2 then [r.1] else [r.1, '-', r.2]) ++ [']']

/-- The class of the blanks. -/
def blanks : CharSet :=
  ⟨false, [('\t', '\r'), (' ', ' '), ('\u0085', '\u0085'), ('\u00a0', '\u00a0'),
    ('\u1680', '\u1680'), ('\u2000', '\u200a'), ('\u2028', '\u2029'), ('\u202f', '\u202f'),
    ('\u205f', '\u205f'), ('\u3000', '\u3000')]⟩

/-- That class holds exactly the blanks. -/
theorem has_blanks (c : Char) : blanks.has c = isBlank c := by
  have h (a b : Char) : (a ≤ b) = (a.toNat ≤ b.toNat) := rfl
  rw [Bool.eq_iff_iff]
  simp only [has, blanks, isBlank, List.any_cons, List.any_nil, h, bne_iff_ne, ne_eq,
    Bool.or_eq_true, Bool.and_eq_true, decide_eq_true_eq, beq_iff_eq, Bool.not_eq_false,
    Bool.or_false]
  simp only [Char.reduceToNat]
  omega

end CharSet

/-! ## Shapes -/

/-- A shape of text; only a class or a single character is ever repeated. -/
inductive Shape where
  | text (cs : List Char)
  | maybe (c : Char)
  | one (s : CharSet)
  | many (s : CharSet)
  | some (s : CharSet)
  | seq (a b : Shape)
  | choice (a b : Shape)
  deriving DecidableEq

namespace Shape

/-! ## Writing -/

/-- A character as it stands for itself in the notation. -/
def writtenChar (c : Char) : List Char :=
  if c = '*' || c = '$' then ['\\', c] else [c]

/-- A choice stands in a group when it is part of a sequence. -/
def grouped : Shape → List Char → List Char
  | .choice _ _, w => ['(', '?', ':'] ++ w ++ [')']
  | _, w => w

/-- The notation of a shape. -/
def written : Shape → List Char
  | .text cs => cs.flatMap writtenChar
  | .maybe c => writtenChar c ++ ['?']
  | .one s => s.written
  | .many s => s.written ++ ['*']
  | .some s => s.written ++ ['+']
  | .seq a b => grouped a a.written ++ grouped b b.written
  | .choice a b => a.written ++ '|' :: b.written

/-! ## Reading -/

/-- Whether a shape takes the empty text. -/
def mayBeEmpty : Shape → Bool
  | .text t => t.isEmpty
  | .maybe _ => true
  | .one _ => false
  | .many _ => true
  | .some _ => false
  | .seq a b => a.mayBeEmpty && b.mayBeEmpty
  | .choice a b => a.mayBeEmpty || b.mayBeEmpty

/-- What may be left of a sequence of shapes behind a character, given its first shape, the shapes
    behind that one, and what may be left of those if the first shape takes nothing. -/
def afterFirst (c : Char) : Shape → List Shape → List (List Shape) → List (List Shape)
  | .text [], _, skipped => skipped
  | .text [d], behind, _ => if c = d then [behind] else []
  | .text (d :: ds), behind, _ => if c = d then [.text ds :: behind] else []
  | .maybe d, behind, skipped => if c = d then behind :: skipped else skipped
  | .one s, behind, _ => if s.has c then [behind] else []
  | .many s, behind, skipped => if s.has c then (.many s :: behind) :: skipped else skipped
  | .some s, behind, _ => if s.has c then [.many s :: behind] else []
  | .seq a b, behind, skipped => afterFirst c a (b :: behind) (afterFirst c b behind skipped)
  | .choice a b, behind, skipped => afterFirst c a behind skipped ++ afterFirst c b behind skipped

/-- What may be left of a sequence of shapes behind a character, what is preferred first. -/
def after (c : Char) : List Shape → List (List Shape)
  | [] => []
  | s :: behind => afterFirst c s behind (after c behind)

/-- Whether a sequence of shapes takes a whole text. -/
def takes (shapes : List Shape) (cs : List Char) : Bool :=
  (cs.foldl (fun left c => left.flatMap (after c)) [shapes]).any fun left =>
    left.all (·.mayBeEmpty)

/-- Whether a shape takes a whole text. -/
def accepts (s : Shape) (cs : List Char) : Bool :=
  takes [s] cs

end Shape

end MacroAsm.Text
