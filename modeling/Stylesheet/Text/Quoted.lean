import Stylesheet.Text.Escape

/-!
The inside of a string. A backslash before a newline continues the line and spells nothing, as
does a backslash at the end of input; a bare newline ends the string like its quote.
-/

namespace Stylesheet.Text

/-- The next piece inside a string opened by `quote`. -/
def stringPiece? (quote : Char) : List Char → Option Piece
  | [] => none
  | c :: r =>
    if c = quote ∨ c = '\n' then none
    else if c = '\\' then
      match r with
      | [] => some ⟨none, 1⟩
      | d :: _ => if d = '\n' then some ⟨none, 2⟩ else some (escapePiece r)
    else some ⟨some c, 1⟩

def stringPieces (quote : Char) (cs : List Char) : List Piece := pieces (stringPiece? quote) cs

/-- The contents of a string; its first code point is the quote, whatever that is. -/
def stringText : List Char → List Char
  | [] => []
  | quote :: r => spelled (stringPieces quote r)

end Stylesheet.Text
