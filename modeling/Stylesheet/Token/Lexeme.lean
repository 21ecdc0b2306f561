import Stylesheet.Text.Comment
import Stylesheet.Text.Name
import Stylesheet.Text.Number
import Stylesheet.Text.Quoted
import Stylesheet.Text.Url
import Stylesheet.Token.Kind

/-!
The lexeme at the front of a text, as its kind and its size in code points. Lexing never
fails: malformed input gives a bad string, a bad url or a delimiter, and at most one error.
The lexemes of a text are cut one after the other until the text is used up.
-/

namespace Stylesheet

open Stylesheet.Text

/-- A token before it has a place in the text. -/
structure Lexeme where
  kind : TokenKind
  size : Nat
  error : Option LexErrorKind
  deriving DecidableEq, Repr

namespace Lexeme

/-- A string; `r` is what follows its opening quote. A newline is left for the next lexeme. -/
def string (quote : Char) (r : List Char) : Lexeme :=
  let n := extent (stringPieces quote r)
  match r.drop n with
  | [] => ⟨.string, 1 + n, some .unterminatedString⟩
  | c :: _ =>
    if c = quote then ⟨.string, 1 + n + 1, none⟩ else ⟨.badString, 1 + n, some .badString⟩

/-- A number, with a unit or a percent sign if one follows directly. -/
def numeric (cs : List Char) : Lexeme :=
  let n := numberSize cs
  let r := cs.drop n
  if startsName r then ⟨.dimension, n + nameSize r, none⟩
  else if r.head? = some '%' then ⟨.percentage, n + 1, none⟩
  else ⟨.number, n, none⟩

/-- What is left of a url that went wrong, up to its closing parenthesis; `n` code points of
it are read. -/
def badUrl (n : Nat) (cs : List Char) : Lexeme :=
  let m := extent (remnantPieces cs)
  ⟨.badUrl, n + m + min 1 (cs.drop m).length, some .badUrl⟩

/-- An unquoted url; its name, its parenthesis and the blanks after it are the `n` code points
already read. -/
def url (n : Nat) (cs : List Char) : Lexeme :=
  let body := extent (urlPieces cs)
  let m := body + blankSize (cs.drop body)
  match cs.drop m with
  | [] => ⟨.url, n + m, some .unterminatedUrl⟩
  | c :: r => if c = ')' then ⟨.url, n + m + 1, none⟩ else badUrl (n + m) (c :: r)

/-- A name, a function or a url. Before a quote `url(` is a function like any other, and the
quote starts a string. -/
def named (cs : List Char) : Lexeme :=
  let n := nameSize cs
  match cs.drop n with
  | [] => ⟨.ident, n, none⟩
  | c :: r =>
    if c ≠ '(' then ⟨.ident, n, none⟩
    else if sameWord (nameText cs) ['u', 'r', 'l'] then
      let m := blankSize r
      if (r.drop m).head?.any isQuote then ⟨.function, n + 1, none⟩
      else url (n + 1 + m) (r.drop m)
    else ⟨.function, n + 1, none⟩

/-- A run of comments; only its last one can lack a terminator. -/
def comments (cs : List Char) : Lexeme :=
  let run := commentRun cs
  ⟨.comments, runSize run, if run.all Comment.closed then none else some .unterminatedComment⟩

/-- A hash and the name after it; it is an id if the name could stand by itself. -/
def hash (r : List Char) : Lexeme :=
  ⟨if startsName r then .hashId else .hashUnrestricted, 1 + nameSize r, none⟩

/-- The code points that are tokens by themselves. -/
def punctuation : List (Char × TokenKind) :=
  [('(', .leftParen), (')', .rightParen), ('[', .leftBracket), (']', .rightBracket),
   ('\x7b', .leftBrace), ('\x7d', .rightBrace), (',', .comma), (':', .colon), (';', .semicolon)]

/-- Any code point that starts nothing longer. -/
def single (c : Char) : Lexeme :=
  if c = '\\' then ⟨.delim, 1, some .invalidEscape⟩
  else ⟨(punctuation.lookup c).getD .delim, 1, none⟩

end Lexeme

/-- The lexeme at the front of a text. -/
def lex : List Char → Lexeme
  | [] => ⟨.eof, 0, none⟩
  | c :: r =>
    let cs := c :: r
    if isBlank c then ⟨.whitespace, blankSize cs, none⟩
    else if isQuote c then .string c r
    else if startsNumber cs then .numeric cs
    else if ['-', '-', '>'].isPrefixOf cs then ⟨.cdc, 3, none⟩
    else if startsName cs then .named cs
    else if ['<', '!', '-', '-'].isPrefixOf cs then ⟨.cdo, 4, none⟩
    else if ['/', '*'].isPrefixOf cs then .comments cs
    else if c = '#' ∧ (namePiece? r).isSome then .hash r
    else if c = '@' ∧ startsName r then ⟨.atKeyword, 1 + nameSize r, none⟩
    else .single c

def lexemes (cs : List Char) : List Lexeme := units Lexeme.size (fun r => some (lex r)) cs

end Stylesheet
