import Stylesheet.Text.Name

/-!
A text with a place to read from. Places are offsets into the text as it was given; reading is
by code points, so a move goes past the whole of a line ending.
-/

namespace Stylesheet

open Stylesheet.Text

/-- Why a text or a place in it is refused. -/
inductive SourceError
  /-- The text has a byte outside seven-bit ASCII, first at this offset. -/
  | nonAscii (offset : Nat) (byte : UInt8)
  /-- A place past the end of the text. -/
  | pastEnd (location : Nat)
  /-- Two places that bound no part of the text. -/
  | badSlice (start stop : Nat)
  deriving DecidableEq, Repr

def SourceError.message : SourceError → String
  | .nonAscii offset byte =>
    let digits := String.ofList (Nat.toDigits 16 byte.toNat)
    s!"byte 0x{digits} at offset {offset} is not 7-bit ASCII"
  | .pastEnd location => s!"offset {location} is past the end of the text"
  | .badSlice start stop => s!"no part of the text lies between {start} and {stop}"

structure Source where
  text : List Char
  location : Nat
  deriving DecidableEq, Repr

namespace Source

/-- The first byte of a character in UTF-8. -/
def leadByte (c : Char) : UInt8 := (String.utf8EncodeChar c).headD 0

/-- Opens a text at its start; it has to be ASCII. -/
def ofChars (text : List Char) : Except SourceError Source :=
  match text.findIdx? fun c => 128 ≤ c.toNat with
  | none => .ok ⟨text, 0⟩
  | some i => .error (.nonAscii i (leadByte (text.getD i ' ')))

def ofString (text : String) : Except SourceError Source := ofChars text.toList

variable (s : Source)

/-- The code points from here on. -/
def ahead : List CodePoint := decode (s.text.drop s.location)

/-- What the scanners read from here on. -/
def rest : List Char := chars s.ahead

def isEnd : Bool := s.text.length ≤ s.location

/-- Where the source stands after `n` more code points. -/
def locationAfter (n : Nat) : Nat := s.location + width (s.ahead.take n)

def skip (n : Nat) : Source := { s with location := s.locationAfter n }

def seek (location : Nat) : Except SourceError Source :=
  if location ≤ s.text.length then .ok { s with location } else .error (.pastEnd location)

def slice (start stop : Nat) : Except SourceError (List Char) :=
  if start ≤ stop ∧ stop ≤ s.text.length then .ok ((s.text.drop start).take (stop - start))
  else .error (.badSlice start stop)

/-- The next code point; none at the end. -/
def peek : Option Char := s.rest.head?

/-- The next `n` code points; none for each that lies past the end. -/
def peekMany (n : Nat) : List (Option Char) := (List.range n).map fun i => s.rest[i]?

def advance : Option Char × Source := (s.peek, s.skip 1)

def advanceWhile (p : Char → Bool) : Source := s.skip (s.rest.takeWhile p).length

/-- Reads an escape whose backslash is already read. -/
def readEscape : Char × Source :=
  let e := escape s.rest
  (e.char, s.skip e.size)

/-- Reads one character of a name, if the name goes on. -/
def readNameChar : Option Char × Source :=
  match namePiece? s.rest with
  | some p => (p.decoded, s.skip p.size)
  | none => (none, s)

/-- Reads `literal` if the text goes on with exactly that. -/
def readLiteral (literal : List Char) : Bool × Source :=
  if literal.isPrefixOf (s.text.drop s.location) then
    (true, { s with location := s.location + literal.length })
  else (false, s)

/-- Reads a name that spells `keyword`; nothing is read if another name stands here. -/
def readKeyword (keyword : List Char) : Bool × Source :=
  match keywordSize? keyword s.rest with
  | some n => (true, s.skip n)
  | none => (false, s)

end Source

end Stylesheet
