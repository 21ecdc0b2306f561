import Stylesheet.Tree.Basic

/-!
Values for some of the nodes of another tree, the reference. They are kept as a tree of their
own: one slot lies below another exactly if its node does in the reference. Both are in
preorder, so the nodes increase from slot to slot, and a node may come after those below it,
which it then takes in.
-/

namespace Stylesheet

/-- A value and the node of the reference it belongs to. -/
structure Note (α : Type) where
  node : Nat
  value : α
  deriving DecidableEq, Repr

structure SparseTree (cap : Nat) (α : Type) where
  slots : List (Slot (Note α))
  deriving DecidableEq, Repr

namespace SparseTree

variable {cap : Nat} {α : Type}

def empty : SparseTree cap α := ⟨[]⟩

/-- A place among the slots: those before it, those after it, and how many of the latter
belong to the subtree the place is in. -/
structure Place (α : Type) where
  before : List (Slot (Note α))
  room : Nat
  after : List (Slot (Note α))

/-- Puts a slot before a place. -/
def Place.cons (s : Slot (Note α)) (p : Place α) : Place α := { p with before := s :: p.before }

/-- Finds the place of a node among the slots, `room` of which belong to the subtree reached,
and counts it in every slot that it will lie below. A subtree that does not hold it is passed
over, `n` more slots of it here. `stop` says where a node's subtree ends in the reference. -/
def locate (stop : Nat → Nat) (node : Nat) :
    (room n : Nat) → List (Slot (Note α)) → Place α
  | room, _, [] => ⟨[], room, []⟩
  | room, n + 1, s :: r => (locate stop node (room - 1) n r).cons s
  | room, 0, s :: r =>
    if room = 0 ∨ node < s.value.node then ⟨[], room, s :: r⟩
    else if node < stop s.value.node then (locate stop node (s.skip - 1) 0 r).cons s.grow
    else (locate stop node (room - 1) (s.skip - 1) r).cons s

/-- How many of the next `room` slots lie in subtrees of nodes before `stop`; `n` more of the
subtree reached do. -/
def absorbed (stop : Nat) : (room n : Nat) → List (Slot (Note α)) → Nat
  | _, _, [] => 0
  | room, n + 1, _ :: r => 1 + absorbed stop (room - 1) n r
  | room, 0, s :: r =>
    if 0 < room ∧ s.value.node < stop then 1 + absorbed stop (room - 1) (s.skip - 1) r else 0

variable (t : SparseTree cap α)

def skips : List Nat := t.slots.map Slot.skip

def nodes : List Nat := t.slots.map fun s => s.value.node

def values : List α := t.slots.map fun s => s.value.value

def len : Nat := t.slots.length

/-- The value of a node of the reference. -/
def find? (node : Nat) : Option α :=
  (t.slots.find? fun s => s.value.node == node).map fun s => s.value.value

/-- Gives a node of the reference a value, and says in which slot it is kept. -/
def insert (reference : List Nat) (node : Nat) (v : α) :
    Except TreeError (Nat × SparseTree cap α) := do
  if reference.length ≤ node then throw (.missingReference node)
  if t.nodes.contains node then throw (.occupied node)
  let _ ← nextIndex cap t.len
  let stop := fun i => i + reference.getD i 0
  let p := locate stop node t.len 0 t.slots
  let s : Slot (Note α) := ⟨absorbed (stop node) p.room 0 p.after + 1, ⟨node, v⟩⟩
  return (p.before.length, ⟨p.before ++ s :: p.after⟩)

end SparseTree

/-- A forward look-up in a sparse tree: where it stands, and whether the node last sought is
there. -/
structure Seeker (cap : Nat) (α : Type) where
  tree : SparseTree cap α
  position : Nat
  found : Bool

namespace Seeker

variable {cap : Nat} {α : Type}

def ofTree (t : SparseTree cap α) : Seeker cap α := ⟨t, 0, false⟩

variable (k : Seeker cap α)

/-- Whether the slot just passed lies before `node`; there may be none. -/
def isAhead (node : Nat) : Bool :=
  match k.position with
  | 0 => true
  | n + 1 => k.tree.nodes[n]?.all (· < node)

/-- Goes on to a node; those before it cannot be reached any more. -/
def seek (node : Nat) : Except TreeError (Bool × Seeker cap α) :=
  if k.isAhead node then
    let position := k.position + ((k.tree.nodes.drop k.position).takeWhile (· < node)).length
    let found := k.tree.nodes[position]? == some node
    return (found, { k with position, found })
  else throw (.movedBackwards node)

def get : Option α := if k.found then k.tree.values[k.position]? else none

def field {β : Type} (f : α → β) : Option β := k.get.map f

def skip : Option Nat := if k.found then k.tree.skips[k.position]? else none

end Seeker

end Stylesheet
