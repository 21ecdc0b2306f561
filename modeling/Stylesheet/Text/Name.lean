import Stylesheet.Text.Escape

/-!
Names: runs of name characters and escapes. A keyword is compared with a name as it is
spelled, not as it is written, and without regard to the case of ASCII letters.
-/

namespace Stylesheet.Text

/-- The next piece of a name, if the name goes on. -/
def namePiece? : List Char → Option Piece
  | [] => none
  | c :: r =>
    if isNameChar c then some ⟨some c, 1⟩
    else if startsEscape (c :: r) then some (escapePiece r)
    else none

def namePieces (cs : List Char) : List Piece := pieces namePiece? cs

/-- The characters of the longest name at the front; it may be empty. -/
def nameText (cs : List Char) : List Char := spelled (namePieces cs)

def nameSize (cs : List Char) : Nat := extent (namePieces cs)

/-- Whether two texts are one up to the case of ASCII letters. -/
def sameWord : List Char → List Char → Bool
  | [], [] => true
  | c :: cs, d :: ds => sameLetter c d && sameWord cs ds
  | _, _ => false

/-- The size of a name that spells `keyword` and ends there. The comparison gives up at the
first character that differs. -/
def keywordSize? : (keyword : List Char) → List Char → Option Nat
  | [], cs => if (namePiece? cs).isSome then none else some 0
  | k :: ks, cs =>
    match namePiece? cs with
    | some ⟨some c, n⟩ =>
      if sameLetter c k then (keywordSize? ks (cs.drop n)).map (n + ·) else none
    | _ => none

end Stylesheet.Text
