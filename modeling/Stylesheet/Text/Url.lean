import Stylesheet.Text.Name

/-!
The inside of an unquoted url, and what is thrown away after one that went wrong.
-/

namespace Stylesheet.Text

/-- Code points that may not stand bare in an unquoted url. -/
def isUrlBreak (c : Char) : Bool :=
  c == ')' || c == '(' || isQuote c || isBlank c || isNonPrintable c

/-- The next piece of a well-formed url. -/
def urlPiece? : List Char → Option Piece
  | [] => none
  | c :: r =>
    if isUrlBreak c then none
    else if c = '\\' then if startsEscape (c :: r) then some (escapePiece r) else none
    else some ⟨some c, 1⟩

def urlPieces (cs : List Char) : List Piece := pieces urlPiece? cs

/-- The next piece of a malformed url: everything up to a bare closing parenthesis. -/
def remnantPiece? : List Char → Option Piece
  | [] => none
  | c :: r =>
    if c = ')' then none
    else if startsEscape (c :: r) then some (escapePiece r)
    else some ⟨some c, 1⟩

def remnantPieces (cs : List Char) : List Piece := pieces remnantPiece? cs

/-- The next piece of a url that is already known to be one: every backslash escapes, and only
a closing parenthesis or a blank ends it. -/
def urlTextPiece? : List Char → Option Piece
  | [] => none
  | c :: r =>
    if c = '\\' then some (escapePiece r)
    else if c = ')' ∨ isBlank c then none
    else some ⟨some c, 1⟩

/-- The contents of an unquoted url, read from the start of its name. -/
def urlText (cs : List Char) : List Char :=
  let arguments := cs.drop (nameSize cs + 1)
  spelled (pieces urlTextPiece? (arguments.drop (blankSize arguments)))

end Stylesheet.Text
