import Stylesheet.Text.Class

/-!
Numbers: an optional sign, digits with an optional fraction, and an optional exponent.
-/

namespace Stylesheet.Text

def signSize : List Char → Nat
  | [] => 0
  | c :: _ => if isSign c then 1 else 0

def digitsSize (cs : List Char) : Nat := (cs.takeWhile Char.isDigit).length

/-- A decimal point counts only before a digit. -/
def fractionSize (cs : List Char) : Nat :=
  if startsFraction cs then 1 + digitsSize (cs.drop 1) else 0

/-- The exponent mark counts only before a digit or a signed digit. -/
def exponentSize : List Char → Nat
  | [] => 0
  | c :: r =>
    let n := signSize r
    if (c = 'e' ∨ c = 'E') ∧ startsDigits (r.drop n) then 1 + n + digitsSize (r.drop n) else 0

def numberSize (cs : List Char) : Nat :=
  let whole := signSize cs + digitsSize (cs.drop (signSize cs))
  let mantissa := whole + fractionSize (cs.drop whole)
  mantissa + exponentSize (cs.drop mantissa)

end Stylesheet.Text
