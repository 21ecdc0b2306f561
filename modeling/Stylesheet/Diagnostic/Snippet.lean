import Stylesheet.Diagnostic
import Stylesheet.Diagnostic.Row

/-!
A diagnostic with the line of text it is about, its span underlined. Spans are counted in bytes
and lie in one line of printable ASCII; the lines around may hold anything. A line that is
indented far is moved to the left.
-/

namespace Stylesheet

/-- A line of a text by number, with a column in it; both count from one. -/
structure Position where
  line : Nat
  column : Nat
  text : List Char
  deriving DecidableEq, Repr

namespace Position

/-- Finds the byte `offset` of a text. `line` is the number of the line reached and `seen` what
of it is already read, last first. -/
def find (line : Nat) (seen : List Char) : Nat → List Char → Position
  | offset, c :: r =>
    if offset = 0 then ⟨line, seen.length + 1, seen.reverse ++ (c :: r).takeWhile (· != '\n')⟩
    else if c = '\n' then find (line + 1) [] (offset - 1) r
    else find line (c :: seen) (offset - c.utf8Size) r
  | _, [] => ⟨line, seen.length + 1, seen.reverse⟩

def ofOffset (text : List Char) (offset : Nat) : Position := find 1 [] offset text

end Position

/-- The part of a line that is shown: from `left` on, and whether marks of omission stand for
what comes before. -/
structure Window where
  left : Nat
  cut : Bool
  deriving DecidableEq, Repr

namespace Window

/-- The longest indentation that is shown whole. -/
def longIndent : Nat := 26

/-- How much of the indentation of a cut line is kept, the marks of omission included. -/
def keptIndent : Nat := 22

/-- A line that is indented too far is shown with less indentation; of a blank line nothing is
shown. -/
def ofLine (text : List Char) : Window :=
  let indent := (text.takeWhile (· == ' ')).length
  if indent = text.length then ⟨text.length, true⟩
  else if longIndent < indent then ⟨indent - keptIndent, true⟩
  else ⟨0, false⟩

end Window

namespace Diagnostic

variable (d : Diagnostic)

def titleRow : Row :=
  let level := cells (some .alarm) "error".toList
  if d.message.isEmpty then level
  else level ++ cells none ": ".toList ++ cells (some .title) d.message.toList

/-- The row that says where the span is. -/
def placeRow (path : String) (p : Position) (margin : Nat) : Row :=
  let row := Row.write [] margin (some .frame) "-->".toList
  row.write (margin + 4) none path.toList ++ cells none s!":{p.line}:{p.column}".toList

def frameRow (margin : Nat) : Row := Row.write [] (margin + 1) (some .frame) ['|']

/-- The row with the line of text, as far as the window shows it. -/
def lineRow (p : Position) (w : Window) (margin : Nat) : Row :=
  let row := Row.write (cells (some .frame) s!"{p.line} |".toList) (margin + 3) none
    (p.text.drop w.left)
  if w.cut then row.write (margin + 3) (some .frame) "...".toList else row

/-- The row that underlines the span, up to the end of its line, and labels it. What lies left
of the window is drawn as far left as there is room: the label after the frame, the underline
over it. -/
def spanRow (p : Position) (w : Window) (margin : Nat) : Row :=
  let start := p.column - 1
  let length := max 1 (min d.span.length (p.text.length - start))
  let label := margin + 3 + (start + length + 1 - w.left)
  let columns := (List.range length).map fun i => margin + 3 + start + i - w.left
  ((frameRow margin).write label (some .alarm) "here".toList).mark columns .alarm '^'

/-- The rows of a snippet: title, place, and the line of text framed and underlined. -/
def rows (path : String) (text : List Char) : List Row :=
  let p := Position.ofOffset text d.span.start
  let w := Window.ofLine p.text
  let margin := (Nat.toDigits 10 p.line).length
  [d.titleRow, placeRow path p margin, frameRow margin, lineRow p w margin, d.spanRow p w margin,
   frameRow margin]

def render (style : Style) (path : String) (text : List Char) : String :=
  "\n".intercalate ((d.rows path text).map fun row => row.text style)

end Diagnostic

end Stylesheet
