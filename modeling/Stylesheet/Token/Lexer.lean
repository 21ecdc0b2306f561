import Stylesheet.Token.Basic

/-!
Lexing step by step, with the errors met so far. A lexer may be moved anywhere in its text,
so the same token can be read, and its error met, more than once.
-/

namespace Stylesheet

structure Lexer where
  source : Source
  errors : List LexError
  deriving DecidableEq, Repr

namespace Lexer

def ofSource (s : Source) : Lexer := ⟨s, []⟩

variable (l : Lexer)

/-- Reads one token; at the end of the text that is the end token, again and again. -/
def next : Token × Lexer :=
  let t := l.source.token
  (t, ⟨{ l.source with location := t.stop }, l.errors ++ t.lexError?.toList⟩)

def seek (location : Nat) : Except SourceError Lexer :=
  (l.source.seek location).map fun s => { l with source := s }

/-- The errors held, and a lexer that holds none. -/
def takeErrors : List LexError × Lexer := (l.errors, { l with errors := [] })

end Lexer

end Stylesheet
