import Stylesheet.Component.Kind
import Stylesheet.Tree.SkipTree

/-!
The tree of a style sheet: rules, blocks, functions and single tokens in the order of the text.
A component knows only where it starts; what it says is read from the text again.
-/

namespace Stylesheet

/-- A component and the place it starts at. A rule with a block also says how many slots after
its own the block is; for everything else that is zero. -/
structure Component where
  kind : ComponentKind
  location : Nat
  extra : Nat
  deriving DecidableEq, Repr

/-- Component trees count their slots in words of 32 bits. -/
def componentCapacity : Nat := capacity 32

/-- A tree of components, empty or rooted at a rule list. -/
structure ComponentTree where
  tree : SkipTree componentCapacity Component
  root : ∀ c ∈ tree.values.head?, c.kind = .ruleList

namespace ComponentTree

def ofTree (t : SkipTree componentCapacity Component) : Except TreeError ComponentTree :=
  if h : ∀ c ∈ t.values.head?, c.kind = .ruleList then .ok ⟨t, h⟩ else .error .rootNotRuleList

variable (t : ComponentTree)

def skips : List Nat := t.tree.skips

def components : List Component := t.tree.values

def size : Nat := t.tree.size

def get (index : Nat) : Except TreeError Component := t.tree.get index

theorem get_of_getElem? {index : Nat} {c : Component} (h : t.components[index]? = some c) :
    t.get index = .ok c := by
  have hvalue : t.tree.get? index = some c := h
  rw [get, SkipTree.get, hvalue]

def cursor : Cursor := t.tree.cursor

def children (index : Nat) : Except TreeError (List Nat) := t.tree.children index

def preorder (index : Nat) : Except TreeError (List (Nat × Nat)) := t.tree.preorder index

def rules : Except TreeError (List Nat) := t.children 0

/-- The block of a rule, if the component is a rule that has one. -/
def ruleBlock? (index : Nat) : Except TreeError (Option Nat) := do
  let c ← t.get index
  return if c.kind.isRule ∧ c.extra ≠ 0 then some (index + c.extra) else none

/-- The components of a rule before its block; of anything else, all that are in it. -/
def preludeOf (index : Nat) : Except TreeError (List Nat) := do
  let block ← t.ruleBlock? index
  let skip ← t.tree.skip index
  t.tree.siblings ⟨index + 1, block.getD (index + skip)⟩

end ComponentTree

end Stylesheet
