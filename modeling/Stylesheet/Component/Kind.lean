import Stylesheet.Token.Kind

/-!
The kinds of components a style sheet is made of. A leaf keeps one token as it is; openers,
names of functions, comments and the end of input have no leaf of their own, since they start
a composite or never reach the tree.
-/

namespace Stylesheet

inductive ComponentKind
  | ident | atKeyword | hashUnrestricted | hashId | string | badString | url | badUrl | delim
  | number | percentage | dimension | whitespace | cdo | cdc | colon | semicolon | comma
  | rightBracket | rightParen | rightBrace
  | ruleList | atRule | qualifiedRule | function | curlyBlock | squareBlock | roundBlock
  deriving DecidableEq, Repr

namespace ComponentKind

def all : List ComponentKind :=
  [.ident, .atKeyword, .hashUnrestricted, .hashId, .string, .badString, .url, .badUrl, .delim,
   .number, .percentage, .dimension, .whitespace, .cdo, .cdc, .colon, .semicolon, .comma,
   .rightBracket, .rightParen, .rightBrace, .ruleList, .atRule, .qualifiedRule, .function,
   .curlyBlock, .squareBlock, .roundBlock]

def name : ComponentKind → String
  | .ident => "IDENT"
  | .atKeyword => "AT_KEYWORD"
  | .hashUnrestricted => "HASH_UNRESTRICTED"
  | .hashId => "HASH_ID"
  | .string => "STRING"
  | .badString => "BAD_STRING"
  | .url => "URL"
  | .badUrl => "BAD_URL"
  | .delim => "DELIM"
  | .number => "NUMBER"
  | .percentage => "PERCENTAGE"
  | .dimension => "DIMENSION"
  | .whitespace => "WHITESPACE"
  | .cdo => "CDO"
  | .cdc => "CDC"
  | .colon => "COLON"
  | .semicolon => "SEMICOLON"
  | .comma => "COMMA"
  | .rightBracket => "RIGHT_BRACKET"
  | .rightParen => "RIGHT_PAREN"
  | .rightBrace => "RIGHT_BRACE"
  | .ruleList => "RULE_LIST"
  | .atRule => "AT_RULE"
  | .qualifiedRule => "QUALIFIED_RULE"
  | .function => "FUNCTION"
  | .curlyBlock => "SIMPLE_BLOCK_CURLY"
  | .squareBlock => "SIMPLE_BLOCK_BRACKET"
  | .roundBlock => "SIMPLE_BLOCK_PAREN"

def ofName? (n : String) : Option ComponentKind := all.find? fun k => k.name == n

/-- The leaf that keeps a token of this kind. -/
def ofToken? : TokenKind → Option ComponentKind
  | .ident => some .ident
  | .atKeyword => some .atKeyword
  | .hashUnrestricted => some .hashUnrestricted
  | .hashId => some .hashId
  | .string => some .string
  | .badString => some .badString
  | .url => some .url
  | .badUrl => some .badUrl
  | .delim => some .delim
  | .number => some .number
  | .percentage => some .percentage
  | .dimension => some .dimension
  | .whitespace => some .whitespace
  | .cdo => some .cdo
  | .cdc => some .cdc
  | .colon => some .colon
  | .semicolon => some .semicolon
  | .comma => some .comma
  | .rightBracket => some .rightBracket
  | .rightParen => some .rightParen
  | .rightBrace => some .rightBrace
  | .eof | .comments | .function | .leftBracket | .leftParen | .leftBrace => none

/-- The kind of the token that stands where a component starts. A rule list and a qualified
rule start at whatever comes first in them. -/
def tokenKind? : ComponentKind → Option TokenKind
  | .ident => some .ident
  | .atKeyword => some .atKeyword
  | .hashUnrestricted => some .hashUnrestricted
  | .hashId => some .hashId
  | .string => some .string
  | .badString => some .badString
  | .url => some .url
  | .badUrl => some .badUrl
  | .delim => some .delim
  | .number => some .number
  | .percentage => some .percentage
  | .dimension => some .dimension
  | .whitespace => some .whitespace
  | .cdo => some .cdo
  | .cdc => some .cdc
  | .colon => some .colon
  | .semicolon => some .semicolon
  | .comma => some .comma
  | .rightBracket => some .rightBracket
  | .rightParen => some .rightParen
  | .rightBrace => some .rightBrace
  | .atRule => some .atKeyword
  | .function => some .function
  | .curlyBlock => some .leftBrace
  | .squareBlock => some .leftBracket
  | .roundBlock => some .leftParen
  | .ruleList | .qualifiedRule => none

def isComposite : ComponentKind → Bool
  | .ruleList | .atRule | .qualifiedRule | .function => true
  | .curlyBlock | .squareBlock | .roundBlock => true
  | _ => false

def isRule (k : ComponentKind) : Bool := k == .atRule || k == .qualifiedRule

theorem mem_all (k : ComponentKind) : k ∈ all := by cases k <;> decide

/-- A leaf starts at the token it keeps. -/
theorem tokenKind?_of_ofToken? {t : TokenKind} {k : ComponentKind} (h : ofToken? t = some k) :
    k.tokenKind? = some t := by
  cases t <;> simp [ofToken?] at h <;> subst h <;> rfl

end ComponentKind

end Stylesheet
