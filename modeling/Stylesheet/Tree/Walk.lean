import Stylesheet.Tree.Cursor

/-!
Walks over a flat tree: along a run of siblings, and through a subtree in preorder with the
depth of every node.
-/

namespace Stylesheet

variable (cap : Nat) (skips : List Nat)

/-- The nodes from the cursor to the end of its run. -/
def siblings (c : Cursor) : Except TreeError (List Nat) :=
  if c.index < c.stop then
    match skips[c.index]? with
    | none => .error (.outside c.index)
    | some 0 => .error (.emptySubtree c.index)
    | some (s + 1) => do
      let _ ← stored cap (c.index + s + 1)
      return c.index :: (← siblings ⟨c.index + s + 1, c.stop⟩)
  else .ok []
termination_by c.stop - c.index

def children (parent : Nat) : Except TreeError (List Nat) := do
  siblings cap skips (← Cursor.childrenOf cap skips parent)

/-- The slots from the cursor to its end, each with the number of the subtrees in `ends` that
still hold it; `ends` lists where the open subtrees end, innermost first. -/
def preorderFrom (ends : List Nat) (c : Cursor) : Except TreeError (List (Nat × Nat)) :=
  if c.index < c.stop then do
    let around := ends.dropWhile (· ≤ c.index)
    let s ← skipAt skips c.index
    let index ← stored cap c.index
    return (index, around.length) ::
      (← preorderFrom ((c.index + s) :: around) ⟨c.index + 1, c.stop⟩)
  else .ok []
termination_by c.stop - c.index

/-- The subtree of a node in preorder, with depths counted from it. A node that is not there
has no subtree. -/
def preorder (root : Nat) : Except TreeError (List (Nat × Nat)) :=
  match skips[root]? with
  | none => .ok []
  | some s => preorderFrom cap skips [] ⟨root, root + s⟩

end Stylesheet
