/-!
Reading a text as code points. A carriage return, a form feed and the pair of a carriage
return and a line feed each read as one line feed, and a NUL reads as the replacement
character. Every code point keeps the number of characters of the text that it stands for,
so that places in the text can be told from places among the code points.
-/

namespace Stylesheet.Text

/-- What is read where the text has nothing readable. -/
def replacement : Char := '\uFFFD'

/-- A code point as the scanners see it, and its width in the text. -/
structure CodePoint where
  char : Char
  width : Nat
  deriving DecidableEq, Repr

/-- How a character reads when it is not part of a pair. -/
def normalize (c : Char) : Char :=
  if c = '\r' ∨ c = '\x0c' then '\n' else if c = '\x00' then replacement else c

def decode : List Char → List CodePoint
  | [] => []
  | '\r' :: '\n' :: r => ⟨'\n', 2⟩ :: decode r
  | c :: r => ⟨normalize c, 1⟩ :: decode r

/-- What the scanners read. -/
def chars (ps : List CodePoint) : List Char := ps.map CodePoint.char

/-- How much of the text a run of code points stands for. -/
def width : List CodePoint → Nat
  | [] => 0
  | p :: ps => p.width + width ps

@[simp] theorem chars_nil : chars [] = [] := rfl
@[simp] theorem chars_cons (p : CodePoint) (ps : List CodePoint) :
    chars (p :: ps) = p.char :: chars ps := rfl
@[simp] theorem width_nil : width [] = 0 := rfl
@[simp] theorem width_cons (p : CodePoint) (ps : List CodePoint) :
    width (p :: ps) = p.width + width ps := rfl

theorem width_append (ps qs : List CodePoint) : width (ps ++ qs) = width ps + width qs := by
  induction ps with
  | nil => simp
  | cons p ps ih => simp [ih, Nat.add_assoc]

/-- The code points account for every character of the text. -/
theorem width_decode (t : List Char) : width (decode t) = t.length := by
  fun_induction decode t with
  | case1 => rfl
  | case2 r ih => simp [ih]; omega
  | case3 c r _ ih => simp [ih]; omega

end Stylesheet.Text
