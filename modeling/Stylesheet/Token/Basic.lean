import Stylesheet.Source
import Stylesheet.Token.Lexeme

/-!
Tokens: lexemes with their places in the text. The tokens of a source lie end to end from
where it stands to the end of its text.
-/

namespace Stylesheet

open Stylesheet.Text

/-- A stretch of a text. -/
structure Span where
  start : Nat
  length : Nat
  deriving DecidableEq, Repr

namespace Span

def stop (r : Span) : Nat := r.start + r.length

/-- The stretch between two places, if they are in order. -/
def between? (start stop : Nat) : Option Span :=
  if start ≤ stop then some ⟨start, stop - start⟩ else none

end Span

structure Token where
  kind : TokenKind
  span : Span
  error : Option LexErrorKind
  deriving DecidableEq, Repr

namespace Token

def start (t : Token) : Nat := t.span.start

def stop (t : Token) : Nat := t.span.stop

end Token

/-- The token that a lexeme at the front of the code points `ps` is, if these start at
`location`. -/
def Lexeme.token (l : Lexeme) (location : Nat) (ps : List CodePoint) : Token :=
  ⟨l.kind, ⟨location, width (ps.take l.size)⟩, l.error⟩

/-- Gives consecutive lexemes of the code points `ps` their places. -/
def placed (location : Nat) (ps : List CodePoint) : List Lexeme → List Token
  | [] => []
  | l :: ls =>
    let t := l.token location ps
    t :: placed t.stop (ps.drop l.size) ls

/-- A lexical error and the start of its token. -/
structure LexError where
  kind : LexErrorKind
  location : Nat
  deriving DecidableEq, Repr

def Token.lexError? (t : Token) : Option LexError := t.error.map fun k => ⟨k, t.start⟩

namespace Source

variable (s : Source)

/-- The token that starts here; at the end of the text that is the empty end token. -/
def token : Token := (lex s.rest).token s.location s.ahead

def tokens : List Token := placed s.location s.ahead (lexemes s.rest)

def endToken : Token := ⟨.eof, ⟨s.text.length, 0⟩, none⟩

/-- The tokens from here on with the end token after them. -/
def tokensToEnd : List Token := s.tokens ++ [s.endToken]

/-- The lexical errors from here on, in the order of their tokens. -/
def lexErrors : List LexError := s.tokens.filterMap Token.lexError?

/-- The token that starts at `location`. -/
def tokenAt (location : Nat) : Except SourceError Token :=
  (s.seek location).map Source.token

end Source

end Stylesheet
