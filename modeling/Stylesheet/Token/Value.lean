import Stylesheet.Token.Basic

/-!
What a token says, read again from where it starts: the name of an identifier, function,
at-keyword or hash, the contents of a string or url, or a delimiter itself. Other kinds say
nothing.
-/

namespace Stylesheet

open Stylesheet.Text

namespace TokenKind

/-- How the value of a token of this kind is read from its code points. A delimiter at the end
of input reads as NUL. -/
def reader? : TokenKind → Option (List Char → List Char)
  | .ident | .function => some nameText
  | .atKeyword | .hashId | .hashUnrestricted => some fun cs => nameText (cs.drop 1)
  | .string | .badString => some stringText
  | .url => some urlText
  | .delim => some fun cs => [cs.headD '\x00']
  | _ => none

end TokenKind

/-- Which contents to read. -/
inductive Reading
  | name | string | url
  deriving DecidableEq, Repr

def Reading.read : Reading → List Char → List Char
  | .name => nameText
  | .string => stringText
  | .url => urlText

namespace Source

variable (s : Source)

/-- The contents that start at `location`, read as asked. -/
def contentsAt (reading : Reading) (location : Nat) : Except SourceError (List Char) :=
  (s.seek location).map fun s => reading.read s.rest

/-- The value of a token of the given kind at `location`. A kind without a value has none at
any place, even past the end. -/
def valueAt (kind : TokenKind) (location : Nat) : Except SourceError (Option (List Char)) :=
  match kind.reader? with
  | none => .ok none
  | some read => (s.seek location).map fun s => some (read s.rest)

end Source

end Stylesheet
