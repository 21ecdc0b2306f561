import Stylesheet.Text.Piece

/-!
Comments. A comment ends at the first terminator after its opening, or with the text; comments
that touch are read as one run.
-/

namespace Stylesheet.Text

/-- A comment with its delimiters, and whether it is terminated. -/
structure Comment where
  size : Nat
  closed : Bool
  deriving DecidableEq, Repr

/-- The size of a comment's rest up to and including its terminator. -/
def commentRest? : List Char → Option Nat
  | '*' :: '/' :: _ => some 2
  | _ :: r => (commentRest? r).map (1 + ·)
  | [] => none

def comment? : List Char → Option Comment
  | '/' :: '*' :: r =>
    match commentRest? r with
    | some n => some ⟨2 + n, true⟩
    | none => some ⟨2 + r.length, false⟩
  | _ => none

/-- The comments that follow each other directly. -/
def commentRun (cs : List Char) : List Comment := units Comment.size comment? cs

def runSize : List Comment → Nat
  | [] => 0
  | c :: run => c.size + runSize run

end Stylesheet.Text
