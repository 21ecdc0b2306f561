import Mathlib.Data.List.Basic
import Stylesheet.Tree.Basic

/-!
Ordered trees as they are thought of, and their layout in flat form: the slots in preorder, each
with the number of slots of its subtree.
-/

namespace Stylesheet

/-- A node with its subtrees in order. -/
inductive Rose (α : Type) where
  | node (value : α) (children : List (Rose α))

namespace Rose

variable {α : Type}

mutual

def size : Rose α → ℕ
  | .node _ ts => 1 + sizes ts

def sizes : List (Rose α) → ℕ
  | [] => 0
  | t :: ts => t.size + sizes ts

end

mutual

/-- The slots of a tree in preorder. -/
def layout : Rose α → List (Slot α)
  | .node v ts => ⟨1 + sizes ts, v⟩ :: layouts ts

def layouts : List (Rose α) → List (Slot α)
  | [] => []
  | t :: ts => t.layout ++ layouts ts

end

/-- Induction over a forest: its first tree is a node over a forest, and a forest follows it. -/
@[elab_as_elim]
theorem forest_induction {P : List (Rose α) → Prop} (nil : P [])
    (cons : ∀ v ts us, P ts → P us → P (.node v ts :: us)) : ∀ ts, P ts
  | [] => nil
  | .node v ts :: us =>
    cons v ts us (forest_induction nil cons ts) (forest_induction nil cons us)

@[simp] lemma sizes_nil : sizes ([] : List (Rose α)) = 0 := rfl
@[simp] lemma sizes_cons (t : Rose α) (ts : List (Rose α)) :
    sizes (t :: ts) = t.size + sizes ts := rfl
@[simp] lemma size_node (v : α) (ts : List (Rose α)) : (node v ts).size = 1 + sizes ts := rfl
@[simp] lemma layouts_nil : layouts ([] : List (Rose α)) = [] := rfl
@[simp] lemma layouts_cons (t : Rose α) (ts : List (Rose α)) :
    layouts (t :: ts) = t.layout ++ layouts ts := rfl
@[simp] lemma layout_node (v : α) (ts : List (Rose α)) :
    (node v ts).layout = ⟨1 + sizes ts, v⟩ :: layouts ts := rfl

@[simp] lemma sizes_append (ts us : List (Rose α)) : sizes (ts ++ us) = sizes ts + sizes us := by
  induction ts with
  | nil => simp
  | cons t ts ih => simp [ih, Nat.add_assoc]

@[simp] lemma layouts_append (ts us : List (Rose α)) :
    layouts (ts ++ us) = layouts ts ++ layouts us := by
  induction ts with
  | nil => simp
  | cons t ts ih => simp [ih]

@[simp] lemma length_layouts (ts : List (Rose α)) : (layouts ts).length = sizes ts := by
  induction ts using forest_induction with
  | nil => rfl
  | cons v ts us ihts ihus =>
    simp only [layouts_cons, layout_node, List.length_append, List.length_cons, ihts, ihus,
      sizes_cons, size_node]
    omega

@[simp] lemma length_layout (t : Rose α) : t.layout.length = t.size := by
  have h := length_layouts [t]
  simpa using h

lemma size_pos (t : Rose α) : 0 < t.size := by
  cases t with
  | node v ts => simp only [size_node]; omega

end Rose

end Stylesheet
