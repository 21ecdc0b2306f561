import Stylesheet.Text.Class
import Stylesheet.Text.CodePoint
import Stylesheet.Text.Piece

/-!
Escapes. After the backslash come one to six hexadecimal digits and at most one blank, or any
other code point, which then stands for itself.
-/

namespace Stylesheet.Text

/-- The character an escape spells, and the code points it takes after the backslash. -/
structure Escape where
  char : Char
  size : Nat
  deriving DecidableEq, Repr

/-- The digits of a hexadecimal escape. -/
def hexDigits (cs : List Char) : List Nat :=
  ((cs.take 6).takeWhile fun c => (hexDigit? c).isSome).filterMap hexDigit?

def hexValue (ds : List Nat) : Nat := ds.foldl (fun v d => v * 16 + d) 0

/-- The character with this number; zero and the numbers of no character give the
replacement character. -/
def scalar (n : Nat) : Char := if n ≠ 0 ∧ n.isValidChar then Char.ofNat n else replacement

/-- Reads an escape whose backslash is already read. -/
def escape (cs : List Char) : Escape :=
  match cs with
  | [] => ⟨replacement, 0⟩
  | c :: _ =>
    match hexDigits cs with
    | [] => ⟨c, 1⟩
    | d :: ds =>
      let n := (d :: ds).length
      ⟨scalar (hexValue (d :: ds)), n + min 1 (blankSize (cs.drop n))⟩

/-- An escape as a piece; `cs` is what follows the backslash. -/
def escapePiece (cs : List Char) : Piece :=
  let e := escape cs
  ⟨some e.char, e.size + 1⟩

end Stylesheet.Text
