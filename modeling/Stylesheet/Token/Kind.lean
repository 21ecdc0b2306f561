/-!
The kinds of tokens and of lexical errors, with the names and messages they are shown by.
-/

namespace Stylesheet

inductive TokenKind
  | eof | comments | whitespace
  | ident | function | atKeyword | hashUnrestricted | hashId | string | badString | url | badUrl
  | delim | number | percentage | dimension | cdo | cdc
  | colon | semicolon | comma | leftBracket | rightBracket | leftParen | rightParen | leftBrace
  | rightBrace
  deriving DecidableEq, Repr

/-- Why a token is malformed. -/
inductive LexErrorKind
  | unterminatedComment | unterminatedString | badString | unterminatedUrl | badUrl | invalidEscape
  deriving DecidableEq, Repr

namespace TokenKind

def all : List TokenKind :=
  [.eof, .comments, .whitespace, .ident, .function, .atKeyword, .hashUnrestricted, .hashId,
   .string, .badString, .url, .badUrl, .delim, .number, .percentage, .dimension, .cdo, .cdc,
   .colon, .semicolon, .comma, .leftBracket, .rightBracket, .leftParen, .rightParen, .leftBrace,
   .rightBrace]

def name : TokenKind → String
  | .eof => "EOF"
  | .comments => "COMMENTS"
  | .whitespace => "WHITESPACE"
  | .ident => "IDENT"
  | .function => "FUNCTION"
  | .atKeyword => "AT_KEYWORD"
  | .hashUnrestricted => "HASH_UNRESTRICTED"
  | .hashId => "HASH_ID"
  | .string => "STRING"
  | .badString => "BAD_STRING"
  | .url => "URL"
  | .badUrl => "BAD_URL"
  | .delim => "DELIM"
  | .number => "NUMBER"
  | .percentage => "PERCENTAGE"
  | .dimension => "DIMENSION"
  | .cdo => "CDO"
  | .cdc => "CDC"
  | .colon => "COLON"
  | .semicolon => "SEMICOLON"
  | .comma => "COMMA"
  | .leftBracket => "LEFT_BRACKET"
  | .rightBracket => "RIGHT_BRACKET"
  | .leftParen => "LEFT_PAREN"
  | .rightParen => "RIGHT_PAREN"
  | .leftBrace => "LEFT_BRACE"
  | .rightBrace => "RIGHT_BRACE"

def ofName? (n : String) : Option TokenKind := all.find? fun k => k.name == n

/-- Tokens that carry no value of their own. -/
def isTrivia (k : TokenKind) : Bool := k == .whitespace || k == .comments

theorem mem_all (k : TokenKind) : k ∈ all := by cases k <;> decide

end TokenKind

namespace LexErrorKind

def name : LexErrorKind → String
  | .unterminatedComment => "UnterminatedComment"
  | .unterminatedString => "UnterminatedString"
  | .badString => "BadString"
  | .unterminatedUrl => "UnterminatedUrl"
  | .badUrl => "BadUrl"
  | .invalidEscape => "InvalidEscape"

def message : LexErrorKind → String
  | .unterminatedComment => "unterminated comment"
  | .unterminatedString => "unterminated string"
  | .badString => "newline inside a string"
  | .unterminatedUrl => "unterminated url"
  | .badUrl => "invalid character inside an unquoted url"
  | .invalidEscape => "backslash followed by a newline"

end LexErrorKind

end Stylesheet
