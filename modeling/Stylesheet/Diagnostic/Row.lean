/-!
Rows of coloured cells. A row is drawn by writing texts at columns, a later one over an earlier
one, and is shown as runs of cells of one colour.
-/

namespace Stylesheet

/-- How rows are coloured. -/
inductive Style
  | plain | ansi
  deriving DecidableEq, Repr

/-- The parts of a snippet that are set off. -/
inductive Role
  | alarm | title | frame
  deriving DecidableEq, Repr

def Role.code : Role → String
  | .alarm => "\x1b[1m\x1b[91m"
  | .title => "\x1b[1m"
  | .frame => "\x1b[1m\x1b[94m"

/-- A character and the part it belongs to, if it is set off. -/
structure Cell where
  char : Char
  role : Option Role
  deriving DecidableEq, Repr

abbrev Row := List Cell

def cells (role : Option Role) (text : List Char) : Row := text.map fun c => ⟨c, role⟩

namespace Row

/-- The row with blanks added up to `column`. -/
def padTo (row : Row) (column : Nat) : Row :=
  row ++ cells none (List.replicate (column - row.length) ' ')

def write (row : Row) (column : Nat) (role : Option Role) (text : List Char) : Row :=
  if text.isEmpty then row
  else (row.padTo column).take column ++ cells role text ++ row.drop (column + text.length)

/-- Writes one character at each of the columns. -/
def mark (row : Row) (columns : List Nat) (role : Role) (c : Char) : Row :=
  columns.foldl (fun row column => row.write column (some role) [c]) row

/-- Puts the next cell in front of the runs of a row. -/
def addToRuns (c : Cell) : List (Option Role × List Char) → List (Option Role × List Char)
  | [] => [(c.role, [c.char])]
  | (role, cs) :: runs =>
    if c.role = role then (role, c.char :: cs) :: runs else (c.role, [c.char]) :: (role, cs) :: runs

/-- The longest runs of cells of one part. -/
def runs (row : Row) : List (Option Role × List Char) := row.foldr addToRuns []

/-- The row as text; in colour every run that is set off is closed by a reset. -/
def text (row : Row) (style : Style) : String :=
  String.join <| row.runs.map fun (role, cs) =>
    match style, role with
    | .ansi, some r => r.code ++ String.ofList cs ++ "\x1b[0m"
    | _, _ => String.ofList cs

end Row

end Stylesheet
