/-!
Text in double quotes, for output. Quotes and backslashes are escaped, and control characters
are written by name or by number, so a literal never spans lines. Texts are ASCII here.
-/

namespace Stylesheet.Text

def isControl (c : Char) : Bool := c.toNat < 0x20 || c == '\x7f'

/-- The control characters with a name, and the two that a literal uses itself. -/
def escapeNames : List (Char × Char) :=
  [('"', '"'), ('\\', '\\'), ('\n', 'n'), ('\r', 'r'), ('\t', 't'), ('\x00', '0')]

/-- A character as it is written in a literal. -/
def literalChar (c : Char) : List Char :=
  match escapeNames.lookup c with
  | some n => ['\\', n]
  | none =>
    if isControl c then ['\\', 'u', '\x7b'] ++ Nat.toDigits 16 c.toNat ++ ['\x7d'] else [c]

def literal (cs : List Char) : List Char := '"' :: (cs.flatMap literalChar ++ ['"'])

end Stylesheet.Text
