set_option autoImplicit false

/-! # Cutting a text at its tokens

Macro bodies, macro openers, templates, include lists and variable uses all hold tokens that begin
with a mark (`%1`, `%code`, `<name>`, `*name`) among other text. A text is cut once, into literal
stretches and tokens, and is then read or filled; what a fill inserts is therefore never looked at
again.

The cut is one fold from the right. No token contains its own mark at a later place, so whether a
mark begins a token depends only on the literal text that follows it, and cutting from the right
finds the same tokens as searching from the left. -/

namespace MacroAsm.Text

/-- A text cut into a literal stretch, then tokens, each with the literal stretch behind it. -/
structure Cut (α : Type) where
  lead : List Char
  rest : List (α × List Char)

namespace Cut

variable {α : Type}

/-- Put one more character in front of a cut text. `token?` reads a token behind the mark, and
    yields it with the characters it leaves. -/
def step (mark : Char) (token? : List Char → Option (α × List Char)) (c : Char) (cut : Cut α) :
    Cut α :=
  if c = mark then
    match token? cut.lead with
    | some (token, literal) => ⟨[], (token, literal) :: cut.rest⟩
    | none => ⟨c :: cut.lead, cut.rest⟩
  else ⟨c :: cut.lead, cut.rest⟩

/-- Cut a text at every mark that begins a token. -/
def ofChars (mark : Char) (token? : List Char → Option (α × List Char)) (cs : List Char) : Cut α :=
  cs.foldr (step mark token?) ⟨[], []⟩

/-- The tokens, in order. -/
def tokens (cut : Cut α) : List α :=
  cut.rest.map Prod.fst

/-- The text with each token replaced. -/
def fill (f : α → List Char) (cut : Cut α) : List Char :=
  cut.lead ++ cut.rest.flatMap (fun p => f p.1 ++ p.2)

/-- The text with each token replaced by a text, put together from whole stretches. -/
def fillText (f : α → String) (cut : Cut α) : String :=
  cut.rest.foldl (fun s p => s ++ f p.1 ++ String.ofList p.2) (String.ofList cut.lead)

theorem toList_fillText (f : α → String) (cut : Cut α) :
    (cut.fillText f).toList = cut.fill fun token => (f token).toList := by
  have h (ps : List (α × List Char)) (s : String) :
      (ps.foldl (fun s p => s ++ f p.1 ++ String.ofList p.2) s).toList =
        s.toList ++ ps.flatMap fun p => (f p.1).toList ++ p.2 := by
    induction ps generalizing s with
    | nil => simp
    | cons p ps ih => simp [ih]
  simp [fillText, fill, h]

end Cut

/-- Read the longest run of characters of a class, if it is not empty. -/
def readRun? (inClass : Char → Bool) (cs : List Char) : Option (List Char × List Char) :=
  match cs.takeWhile inClass with
  | [] => none
  | run => some (run, cs.dropWhile inClass)

end MacroAsm.Text
