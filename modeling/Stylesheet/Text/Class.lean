/-!
Classes of code points, and the short lookahead that says which kind of token can start
here. End of input is the empty list: it belongs to no class, but a backslash before it
still starts an escape.
-/

namespace Stylesheet.Text

def isBlank (c : Char) : Bool := c == '\n' || c == '\t' || c == ' '

/-- Letters, the underscore and everything that is not ASCII. -/
def isNameStart (c : Char) : Bool := c.isAlpha || c == '_' || 128 ≤ c.toNat

def isNameChar (c : Char) : Bool := isNameStart c || c.isDigit || c == '-'

/-- The control characters that are neither blank nor read as a newline. -/
def isNonPrintable (c : Char) : Bool :=
  c.toNat ≤ 0x8 || c == '\x0b' || (0xe ≤ c.toNat && c.toNat ≤ 0x1f) || c == '\x7f'

def isQuote (c : Char) : Bool := c == '"' || c == '\''

def isSign (c : Char) : Bool := c == '+' || c == '-'

/-- The value of a hexadecimal digit of either case. -/
def hexDigit? (c : Char) : Option Nat :=
  if c.isDigit then some (c.toNat - 48)
  else if 'a' ≤ c ∧ c ≤ 'f' then some (c.toNat - 87)
  else if 'A' ≤ c ∧ c ≤ 'F' then some (c.toNat - 55)
  else none

/-- Two characters that are one up to the case of an ASCII letter. -/
def sameLetter (c d : Char) : Bool := c.toLower == d.toLower

/-- A backslash that no newline follows. -/
def startsEscape : List Char → Bool
  | c :: d :: _ => c == '\\' && d != '\n'
  | [c] => c == '\\'
  | [] => false

/-- Whether the first three code points start a name. -/
def startsName : List Char → Bool
  | [] => false
  | c :: r =>
    if c = '-' then
      match r with
      | [] => false
      | d :: _ => isNameStart d || d == '-' || startsEscape r
    else if c = '\\' then startsEscape (c :: r)
    else isNameStart c

def startsDigits : List Char → Bool
  | [] => false
  | c :: _ => c.isDigit

def startsFraction : List Char → Bool
  | [] => false
  | c :: r => c == '.' && startsDigits r

/-- Whether the first three code points start a number. -/
def startsNumber : List Char → Bool
  | [] => false
  | c :: r =>
    if isSign c then startsDigits r || startsFraction r
    else startsDigits (c :: r) || startsFraction (c :: r)

def blankSize (cs : List Char) : Nat := (cs.takeWhile isBlank).length

end Stylesheet.Text
