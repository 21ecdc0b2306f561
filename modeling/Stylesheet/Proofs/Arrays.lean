import Mathlib.Data.Nat.Notation
import Stylesheet.Tree.SkipTree
import Stylesheet.Tree.Sparse

/-!
Growing a tree in place. The skips and the values of a tree are kept in arrays of their own, which
are written to entry by entry while a loop looks for the place of a new node. Every number that is
written has to fit into a word, and nothing is taken back: where an operation fails half-way, the
arrays stay as they are then.
-/

namespace Stylesheet

/-- An operation that changes something in place. What it has changed before it fails stays. -/
abbrev InPlace (σ β : Type) := ExceptT TreeError (StateM σ) β

namespace InPlace

variable {σ β γ : Type}

def run (x : InPlace σ β) (s : σ) : Except TreeError β × σ := (ExceptT.run x).run s

def check (x : Except TreeError β) : InPlace σ β := ExceptT.mk (pure x)

/-- A loop of a number of turns. A turn that has nothing left to do does nothing. -/
def turns (turn : γ → InPlace σ γ) : ℕ → γ → InPlace σ γ
  | 0, c => pure c
  | n + 1, c => do
    let c ← turn c
    turns turn n c

section run

variable {x : InPlace σ β} {f : β → InPlace σ γ} {s t : σ}

@[simp] lemma run_pure (b : β) : run (pure b : InPlace σ β) s = (.ok b, s) := rfl

@[simp] lemma run_check (y : Except TreeError β) : run (check y : InPlace σ β) s = (y, s) := rfl

@[simp] lemma run_get_bind (g : σ → InPlace σ γ) : run (get >>= g) s = run (g s) s := rfl

@[simp] lemma run_set_bind (g : PUnit → InPlace σ γ) : run (set t >>= g) s = run (g ⟨⟩) t := rfl

lemma run_bind_ok {b : β} (h : run x s = (.ok b, t)) : run (x >>= f) s = run (f b) t := by
  change StateT.run (StateT.bind x (ExceptT.bindCont f)) s = _
  have hx : StateT.run x s = (.ok b, t) := h
  simp only [StateT.bind, StateT.run] at hx ⊢
  rw [hx]
  rfl

lemma run_check_ok {y : Except TreeError β} {b : β} (h : y = .ok b) :
    run (check y >>= f) s = run (f b) s := by
  rw [h]
  rfl

lemma run_check_error {y : Except TreeError β} {e : TreeError} (h : y = .error e) :
    run (check y >>= f) s = (.error e, s) := by
  rw [h]
  rfl

end run

section turns

variable {turn : β → InPlace σ β} {s t : σ} {c d : β}

lemma run_turns_idle (h : run (turn c) s = (.ok c, s)) (n : ℕ) :
    run (turns turn n c) s = (.ok c, s) := by
  induction n with
  | zero => rfl
  | succ n ih => rw [turns, run_bind_ok h, ih]

lemma run_turns_succ (h : run (turn c) s = (.ok d, t)) (n : ℕ) :
    run (turns turn (n + 1) c) s = run (turns turn n d) t := by
  rw [turns, run_bind_ok h]

end turns

end InPlace

open InPlace

/-! ### Trees that grow at the end of a subtree -/

/-- A tree as two arrays. -/
structure TreeArrays (α : Type) where
  skips : List ℕ
  values : List α

namespace TreeArrays

variable {α : Type}

def empty : TreeArrays α := ⟨[], []⟩

/-- The skips and the values of slots. -/
def ofSlots (slots : List (Slot α)) : TreeArrays α := ⟨slots.map Slot.skip, slots.map Slot.value⟩

/-- One turn of the search for a node, which goes on from `index`. A subtree that holds the node
gets one slot more and is entered; any other is passed over. -/
def searchTurn (cap target index : ℕ) : InPlace (TreeArrays α) ℕ :=
  if index = target then return index
  else do
    let a ← get
    let skip ← check (skipAt a.skips index)
    if target < index + skip then do
      let grown ← check (stored cap (skip + 1))
      set { a with skips := a.skips.set index grown }
      return index + 1
    else return index + skip

/-- The search for a node, from the root on. The number of turns is one that is always enough. -/
def search (cap target : ℕ) : InPlace (TreeArrays α) ℕ := turns (searchTurn cap target) target 0

def insertSlot (index : ℕ) (v : α) : InPlace (TreeArrays α) Unit := do
  let a ← get
  if index ≤ a.skips.length then
    set (TreeArrays.mk (a.skips.insertIdx index 1) (a.values.insertIdx index v))
  else throw (.outside index)

def createRoot (cap : ℕ) (v : α) : InPlace (TreeArrays α) ℕ := do
  let a ← get
  if a.skips.isEmpty then do
    let root ← check (nextIndex cap 0)
    set (TreeArrays.mk (a.skips ++ [1]) (a.values ++ [v]))
    return root
  else throw .rootExists

def appendChild (cap parent : ℕ) (v : α) : InPlace (TreeArrays α) ℕ := do
  let a ← get
  if a.skips.length ≤ parent then throw (.missingNode parent)
  else do
    let _ ← check (nextIndex cap a.skips.length)
    let _ ← search cap parent
    let a ← get
    let skip ← check (skipAt a.skips parent)
    let grown ← check (stored cap (skip + 1))
    set { a with skips := a.skips.set parent grown }
    insertSlot (parent + skip) v
    check (stored cap (parent + skip))

end TreeArrays

/-! ### Trees over a reference -/

/-- A sparse tree as three arrays. -/
structure SparseArrays (α : Type) where
  skips : List ℕ
  nodes : List ℕ
  values : List α

namespace SparseArrays

variable {α : Type}

def empty : SparseArrays α := ⟨[], [], []⟩

/-- The skips, the nodes and the values of slots. -/
def ofSlots (slots : List (Slot (Note α))) : SparseArrays α :=
  ⟨slots.map Slot.skip, slots.map fun s => s.value.node, slots.map fun s => s.value.value⟩

/-- One turn of the search for the place of a node. The cursor says where the search is and where
the subtree ends that it is in; a slot whose subtree of the reference holds the node is entered. -/
def locateTurn (cap : ℕ) (reference : List ℕ) (node : ℕ) (c : Cursor) :
    InPlace (SparseArrays α) Cursor :=
  if c.index < c.stop then do
    let a ← get
    let current ← check (skipAt a.nodes c.index)
    if node < current then return c
    else do
      let skip ← check (skipAt a.skips c.index)
      let extent ← check (skipAt reference current)
      if node < current + extent then do
        let grown ← check (stored cap (skip + 1))
        set { a with skips := a.skips.set c.index grown }
        return ⟨c.index + 1, c.index + skip⟩
      else return ⟨c.index + skip, c.stop⟩
  else return c

/-- One turn of the search for the end of the slots that a new slot takes in: those of nodes before
`limit`, up to the slot `stop`. -/
def absorbTurn (limit stop index : ℕ) : InPlace (SparseArrays α) ℕ :=
  if index < stop then do
    let a ← get
    let current ← check (skipAt a.nodes index)
    if current < limit then do
      let skip ← check (skipAt a.skips index)
      return index + skip
    else return index
  else return index

def insertSlot (index skip node : ℕ) (v : α) : InPlace (SparseArrays α) Unit := do
  let a ← get
  if index ≤ a.skips.length then
    set (SparseArrays.mk (a.skips.insertIdx index skip) (a.nodes.insertIdx index node)
      (a.values.insertIdx index v))
  else throw (.outside index)

/-- Puts a value for a node where it belongs, and says in which slot. `last` is the end of the
node's subtree. Both loops have as many turns as there are slots, which is always enough. -/
def place (cap : ℕ) (reference : List ℕ) (node last : ℕ) (v : α) :
    InPlace (SparseArrays α) ℕ := do
  let a ← get
  let c ← turns (locateTurn cap reference node) a.skips.length ⟨0, a.skips.length⟩
  let absorbed ← turns (absorbTurn last c.stop) a.skips.length c.index
  let skip ← check (stored cap (absorbed - c.index + 1))
  insertSlot c.index skip node v
  check (stored cap c.index)

/-- Gives a node of the reference a value, and says in which slot it is kept. -/
def insert (cap : ℕ) (reference : List ℕ) (node : ℕ) (v : α) : InPlace (SparseArrays α) ℕ := do
  let a ← get
  if reference.length ≤ node then throw (.missingReference node)
  else if a.nodes.contains node then throw (.occupied node)
  else do
    let extent ← check (skipAt reference node)
    let _ ← check (nextIndex cap a.skips.length)
    place cap reference node (node + extent) v

end SparseArrays

end Stylesheet
