import Stylesheet.Tree.Walk

/-!
A tree that grows by appending children. A new node goes to the end of its parent's subtree, so
the slots after it move up by one, and the skip of every node on the way down to the parent
grows by one.
-/

namespace Stylesheet

/-- A tree of at most `cap` nodes, in preorder. -/
structure SkipTree (cap : Nat) (α : Type) where
  slots : List (Slot α)
  deriving DecidableEq, Repr

namespace SkipTree

variable {cap : Nat} {α : Type}

def empty : SkipTree cap α := ⟨[]⟩

/-- Counts one more slot in every node on the way to the node `d` slots ahead, that node
included. A subtree that does not hold it is passed over, `n` more slots of it here. -/
def growPath : (d n : Nat) → List (Slot α) → List (Slot α)
  | _, _, [] => []
  | d, n + 1, s :: r => s :: growPath (d - 1) n r
  | 0, 0, s :: r => s.grow :: r
  | d + 1, 0, s :: r =>
    if d + 1 < s.skip then s.grow :: growPath d 0 r else s :: growPath d (s.skip - 1) r

variable (t : SkipTree cap α)

def skips : List Nat := t.slots.map Slot.skip

def values : List α := t.slots.map Slot.value

def len : Nat := t.slots.length

def size : Nat := t.skips.headD 0

def skip (index : Nat) : Except TreeError Nat := skipAt t.skips index

def get? (index : Nat) : Option α := t.values[index]?

def get (index : Nat) : Except TreeError α :=
  match t.get? index with
  | some v => .ok v
  | none => .error (.outside index)

def createRoot (v : α) : Except TreeError (Nat × SkipTree cap α) :=
  if t.slots.isEmpty then do
    let root ← nextIndex cap 0
    return (root, ⟨[⟨1, v⟩]⟩)
  else throw .rootExists

def appendChild (parent : Nat) (v : α) : Except TreeError (Nat × SkipTree cap α) :=
  match t.slots[parent]? with
  | none => throw (.missingNode parent)
  | some s => do
    let _ ← nextIndex cap t.len
    let child := parent + s.skip
    return (child, ⟨(growPath parent 0 t.slots).insertIdx child ⟨1, v⟩⟩)

def cursor : Cursor := ⟨0, t.size⟩

def siblings (c : Cursor) : Except TreeError (List Nat) := Stylesheet.siblings cap t.skips c

def children (index : Nat) : Except TreeError (List Nat) := Stylesheet.children cap t.skips index

def preorder (index : Nat) : Except TreeError (List (Nat × Nat)) :=
  Stylesheet.preorder cap t.skips index

end SkipTree

end Stylesheet
