/-!
Trees as flat lists of slots in preorder. A slot's skip counts the slots of its subtree, so the
node at index `i` with skip `s` owns the slots from `i` up to `i + s`. Indices and skips are
stored in words of a fixed width, which bounds how many slots a tree may have.
-/

namespace Stylesheet

/-- Why an operation on a tree is refused. -/
inductive TreeError
  /-- One more slot could not be counted. -/
  | overflow (capacity : Nat)
  /-- A number is too large to be stored. -/
  | indexRange (index : Nat)
  /-- A slot that is not there is read. -/
  | outside (index : Nat)
  /-- A node whose skip does not count its own slot. -/
  | emptySubtree (index : Nat)
  | rootExists
  | missingNode (index : Nat)
  | secondRoot
  | noneOpen
  | stillOpen
  | notAhead (index : Nat)
  | missingReference (index : Nat)
  | occupied (index : Nat)
  | movedBackwards (index : Nat)
  /-- The root of a component tree is not a rule list. -/
  | rootNotRuleList
  /-- A token that no component takes. -/
  | strayToken (name : String)
  deriving DecidableEq, Repr

def TreeError.message : TreeError → String
  | .overflow capacity => s!"tree cannot address more than {capacity} nodes"
  | .indexRange index => s!"index {index} out of range"
  | .outside index => s!"slot {index} is outside the tree"
  | .emptySubtree index => s!"node {index} has an empty subtree"
  | .rootExists => "the tree already has a root"
  | .missingNode index => s!"node {index} does not exist"
  | .secondRoot => "a skip tree has exactly one root"
  | .noneOpen => "no opened nodes?"
  | .stillOpen => "you should finish every started node"
  | .notAhead index => s!"node {index} is not ahead of the cursor"
  | .missingReference index => s!"reference node {index} does not exist"
  | .occupied index => s!"reference node {index} already has a value"
  | .movedBackwards index => s!"seek_forward moved backwards to {index}"
  | .rootNotRuleList => "the root is not a rule list"
  | .strayToken name => s!"{name} does not belong to any component"

/-- The largest number that a word of `bits` bits holds. -/
def capacity (bits : Nat) : Nat := Nat.pow 2 bits - 1

/-- The number as a word holds it, if it does. -/
def fits? (cap n : Nat) : Option Nat := if n ≤ cap then some n else none

/-- The number as a word holds it; one too large is an error. -/
def stored (cap n : Nat) : Except TreeError Nat :=
  if n ≤ cap then .ok n else .error (.indexRange n)

/-- The index of a new slot after `len` others, if the skip of the root can still count it. -/
def nextIndex (cap len : Nat) : Except TreeError Nat :=
  if len < cap then .ok len else .error (.overflow cap)

theorem stored_of_le {cap n : Nat} (h : n ≤ cap) : stored cap n = .ok n := if_pos h

theorem nextIndex_of_lt {cap len : Nat} (h : len < cap) : nextIndex cap len = .ok len := if_pos h

theorem nextIndex_of_le {cap len : Nat} (h : cap ≤ len) :
    nextIndex cap len = .error (.overflow cap) := if_neg (Nat.not_lt_of_le h)

/-- A node of a flat tree. -/
structure Slot (α : Type) where
  skip : Nat
  value : α
  deriving DecidableEq, Repr

def Slot.grow {α : Type} (s : Slot α) : Slot α := { s with skip := s.skip + 1 }

end Stylesheet
