/-!
Cutting a text into units of one or more code points, from left to right, until a reader
declines. Names, strings, urls, runs of comments and the stream of lexemes are all cut this
way. The recursion is on the text: after a unit of several code points the others are passed
over one by one.
-/

namespace Stylesheet.Text

variable {α : Type}

/-- The units after `n` more code points, where `next` reads one unit and `size` is its
length; a unit takes at least one code point. -/
def unitsAfter (size : α → Nat) (next : List Char → Option α) : Nat → List Char → List α
  | _, [] => []
  | n + 1, _ :: r => unitsAfter size next n r
  | 0, c :: r =>
    match next (c :: r) with
    | none => []
    | some a => a :: unitsAfter size next (size a - 1) r

/-- The units of a text, up to where `next` declines. -/
def units (size : α → Nat) (next : List Char → Option α) (cs : List Char) : List α :=
  unitsAfter size next 0 cs

/-- A unit of a name, a string or a url: the character it spells, if it spells one, and its
length in code points. -/
structure Piece where
  decoded : Option Char
  size : Nat
  deriving DecidableEq, Repr

def pieces (next : List Char → Option Piece) (cs : List Char) : List Piece :=
  units Piece.size next cs

def spelled (ps : List Piece) : List Char := ps.filterMap Piece.decoded

def extent : List Piece → Nat
  | [] => 0
  | p :: ps => p.size + extent ps

variable (size : α → Nat) (next : List Char → Option α)

@[simp] theorem unitsAfter_nil (n : Nat) : unitsAfter size next n [] = [] := by
  cases n <;> rfl

theorem unitsAfter_eq_drop (n : Nat) (cs : List Char) :
    unitsAfter size next n cs = units size next (cs.drop n) := by
  induction n generalizing cs with
  | zero => rfl
  | succ n ih => cases cs <;> simp [units, unitsAfter, ih]

theorem units_cons {c : Char} {r : List Char} {a : α} (h : next (c :: r) = some a) :
    units size next (c :: r) = a :: units size next (r.drop (size a - 1)) := by
  rw [← unitsAfter_eq_drop]
  simp [units, unitsAfter, h]

theorem units_of_none {cs : List Char} (h : next cs = none) : units size next cs = [] := by
  cases cs with
  | nil => rfl
  | cons c r => rw [units, unitsAfter, h]

end Stylesheet.Text
