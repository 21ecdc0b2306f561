import Stylesheet.Tree.SkipTree

/-!
Building a tree in preorder. A node is written when it is started and its skip is set when it
is finished, so no slot ever moves. A node that turns out not to belong to the tree can be
abandoned together with everything under it.
-/

namespace Stylesheet

/-- The slots written so far, and the nodes still open, innermost first. -/
structure Builder (cap : Nat) (α : Type) where
  slots : List (Slot α)
  opened : List Nat
  deriving DecidableEq, Repr

namespace Builder

variable {cap : Nat} {α : Type}

def empty : Builder cap α := ⟨[], []⟩

variable (b : Builder cap α)

def len : Nat := b.slots.length

def depth : Nat := b.opened.length

def isEmpty : Bool := b.slots.isEmpty

/-- Adds a node without children under the innermost open node. -/
def leaf (v : α) : Except TreeError (Nat × Builder cap α) :=
  if b.opened.isEmpty && !b.isEmpty then throw .secondRoot
  else do
    let index ← nextIndex cap b.len
    return (index, { b with slots := b.slots ++ [⟨1, v⟩] })

/-- Adds a node and leaves it open. -/
def startNode (v : α) : Except TreeError (Nat × Builder cap α) := do
  let (index, b) ← b.leaf v
  return (index, { b with opened := index :: b.opened })

/-- Closes the innermost open node; it owns everything written since it was started. -/
def finishNode : Except TreeError (Nat × Builder cap α) :=
  match b.opened with
  | [] => throw .noneOpen
  | index :: opened =>
    return (index, ⟨b.slots.modify index fun s => { s with skip := b.len - index }, opened⟩)

/-- Drops the innermost open node and everything under it. -/
def abandonNode : Except TreeError (Builder cap α) :=
  match b.opened with
  | [] => throw .noneOpen
  | index :: opened => return ⟨b.slots.take index, opened⟩

/-- Changes the value of a node already written. -/
def modifyValue (index : Nat) (f : α → α) : Except TreeError (Builder cap α) :=
  if index < b.len then
    return { b with slots := b.slots.modify index fun s => { s with value := f s.value } }
  else throw (.outside index)

def finish : Except TreeError (SkipTree cap α) :=
  if b.opened.isEmpty then return ⟨b.slots⟩ else throw .stillOpen

end Builder

end Stylesheet
