import Stylesheet.Tree.Basic

/-!
Moving about in a flat tree, given only its skips. A cursor stands on a node of a run of
siblings and knows where the run ends. The skips need not be those of a tree, so every move can
fail.
-/

namespace Stylesheet

/-- The node at `index`; `stop` is just past the last slot of its run of siblings. -/
structure Cursor where
  index : Nat
  stop : Nat
  deriving DecidableEq, Repr

/-- The skip of the node at `index`. -/
def skipAt (skips : List Nat) (index : Nat) : Except TreeError Nat :=
  match skips[index]? with
  | some s => .ok s
  | none => .error (.outside index)

theorem skipAt_of_getElem? {skips : List Nat} {index s : Nat} (h : skips[index]? = some s) :
    skipAt skips index = .ok s := by
  rw [skipAt, h]

namespace Cursor

variable (cap : Nat) (skips : List Nat)

/-- The cursor on the first child of `parent`. -/
def childrenOf (parent : Nat) : Except TreeError Cursor := do
  let index ← stored cap (parent + 1)
  let s ← skipAt skips parent
  let stop ← stored cap (parent + s)
  return ⟨index, stop⟩

/-- Past the last sibling. -/
def isDone (c : Cursor) : Bool := c.stop ≤ c.index

def firstChild (c : Cursor) : Except TreeError Cursor := childrenOf cap skips c.index

/-- Moves past the subtree of the current node. -/
def nextSibling (c : Cursor) : Except TreeError Cursor := do
  let s ← skipAt skips c.index
  let index ← stored cap (c.index + s)
  return { c with index }

/-- Goes from sibling to sibling, and down into the one whose subtree holds `target`, until
the cursor stands on it. -/
def descend (target : Nat) (c : Cursor) : Except TreeError Cursor :=
  if c.index < target then
    match skips[c.index]? with
    | none => .error (.outside c.index)
    | some 0 => .error (.emptySubtree c.index)
    | some (s + 1) =>
      if target ≤ c.index + s then descend target ⟨c.index + 1, c.index + s + 1⟩
      else descend target ⟨c.index + s + 1, c.stop⟩
  else .ok c
termination_by target - c.index

/-- Moves to `target`: the current node, a later sibling, or a node below one of these. -/
def seekNode (target : Nat) (c : Cursor) : Except TreeError Cursor := do
  if c.index ≤ target ∧ target < c.stop then
    let d ← descend skips target c
    let index ← stored cap d.index
    let stop ← stored cap d.stop
    return ⟨index, stop⟩
  else throw (.notAhead target)

end Cursor

end Stylesheet
