import Stylesheet.Component.Kind
import Stylesheet.Token.Basic

/-!
What can be open while a style sheet is read, and the problems that are found in it.
-/

namespace Stylesheet

inductive Bracket
  | curly | square | round
  deriving DecidableEq, Repr

namespace Bracket

def ofOpener? : TokenKind → Option Bracket
  | .leftBrace => some .curly
  | .leftBracket => some .square
  | .leftParen => some .round
  | _ => none

def closer : Bracket → TokenKind
  | .curly => .rightBrace
  | .square => .rightBracket
  | .round => .rightParen

/-- The block between two such brackets. -/
def block : Bracket → ComponentKind
  | .curly => .curlyBlock
  | .square => .squareBlock
  | .round => .roundBlock

end Bracket

/-- Where a list of rules stands. -/
inductive ListKind
  | topLevel | nested
  deriving DecidableEq, Repr

namespace ListKind

def name : ListKind → String
  | .topLevel => "TopLevel"
  | .nested => "Nested"

/-- The tokens between rules that mean nothing; the marks of an old comment are such only at
the top level. -/
def ignores : ListKind → TokenKind → Bool
  | _, .whitespace => true
  | .topLevel, .cdo | .topLevel, .cdc => true
  | _, _ => false

end ListKind

/-- An open component, with the token that opened it. An attached block is the block of the
rule right below it and closes that rule too. -/
inductive Frame
  | ruleList (list : ListKind)
  | atRule (opening : Token)
  | qualifiedRule (opening : Token)
  | block (opening : Token) (bracket : Bracket) (attached : Bool)
  | function (opening : Token)
  deriving DecidableEq, Repr

inductive Problem
  | lexical (error : LexErrorKind)
  | unclosedBlock (bracket : Bracket)
  | unclosedFunction
  | unclosedAtRule
  | missingBlock
  deriving DecidableEq, Repr

def Problem.message : Problem → String
  | .lexical error => error.message
  | .unclosedBlock .curly => "unclosed `\x7b`"
  | .unclosedBlock .square => "unclosed `[`"
  | .unclosedBlock .round => "unclosed `(`"
  | .unclosedFunction => "unclosed function"
  | .unclosedAtRule => "at-rule is not closed by `;` or a block"
  | .missingBlock => "qualified rule has no block"

/-- A problem and the token it is found at. -/
structure Finding where
  problem : Problem
  span : Span
  deriving DecidableEq, Repr

/-- The problem of a malformed token. -/
def Token.finding? (t : Token) : Option Finding := t.error.map fun k => ⟨.lexical k, t.span⟩

end Stylesheet
