import MacroAsm.Macros.Opener

set_option autoImplicit false

/-! # The size of openers

Openers are matched by an automaton that reads forwards and one that reads backwards. Neither may take
more than a limit of bytes, and a macro whose opener would is refused. A state takes 32 bytes; each
range of characters out of a state takes 8 more, and each other way out of it takes 4. -/

namespace MacroAsm

open Text (CharSet Shape)

/-- The bytes that the two automata take. -/
structure MatcherSize where
  forward : Nat
  backward : Nat
  deriving DecidableEq, Repr

namespace MatcherSize

/-- The most bytes that either may take. -/
def limit : Nat := 10485760

/-- The same size of both. -/
def both (n : Nat) : MatcherSize := ⟨n, n⟩

instance : Add MatcherSize := ⟨fun a b => ⟨a.forward + b.forward, a.backward + b.backward⟩⟩

/-- Whether both are within the limit. -/
def fits (s : MatcherSize) : Bool :=
  s.forward ≤ limit && s.backward ≤ limit

/-- The size of some states without ranges and choices. -/
def states (n : Nat) : MatcherSize := both (32 * n)

/-- The size of a text: a state for each of its bytes. -/
def ofText (cs : List Char) : MatcherSize :=
  states (String.ofList cs).utf8ByteSize

/-- How many ranges a class has when ranges that touch are taken together. -/
def rangeCount (s : CharSet) : Nat :=
  s.ranges.countP fun r => !s.ranges.any fun q => q.2.toNat + 1 == r.1.toNat

/-- The size of a character class: the ranges of an ASCII class leave one state for another. A class
    that goes further is cut into ranges of bytes, for which fewer states can be shared backwards; only
    two such classes occur, the blanks and all characters but one. -/
def ofCharSet (s : CharSet) : MatcherSize :=
  if s = .blanks then ⟨424, 680⟩
  else if s.outside then ⟨424, 1000⟩
  else both (64 + 8 * rangeCount s)

/-- The size of a state with two ways out. -/
def fork : MatcherSize := both 40

/-- The size of a shape. In a choice, each of its sides takes a way out of the same state. -/
def ofShape (inChoice : Bool) : Shape → MatcherSize
  | .choice a b => (if inChoice then both 0 else both 64) + ofShape true a + ofShape true b
  | .text t => way + ofText t
  | .maybe c => way + fork + states 1 + ofText [c]
  | .one s => way + ofCharSet s
  | .many s => way + fork + ofCharSet s
  | .some s => way + fork + ofCharSet s
  | .seq a b => way + ofShape false a + ofShape false b
where
  /-- The way out of the state of the choice, if the shape is a side of one. -/
  way : MatcherSize := if inChoice then both 4 else both 0

/-- The size of a piece. Forwards, the ends of an operand are states of their own. -/
def ofPiece (p : Piece) : MatcherSize :=
  ofShape false p.shape + (if p.isOperand then ⟨64, 0⟩ else both 0)

/-- The size of an opener, with the blanks at both ends of a line and with the states at which a line
    begins and ends. -/
def ofOpener (o : Opener) : MatcherSize :=
  let ends := ofShape false (.many .blanks)
  o.foldl (fun size p => size + ofPiece p) (⟨192, 128⟩ + ends + ends)

end MatcherSize

end MacroAsm
