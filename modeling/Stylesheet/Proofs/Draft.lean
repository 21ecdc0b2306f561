import Stylesheet.Proofs.Rose
import Stylesheet.Structure.Machine

/-!
What a builder holds while nodes are open. The open nodes form a path from the root down, each
with the subtrees that are already finished under it; the slots of the builder are the layout of
that path. Every operation of the builder is an operation on the path: starting a node makes the
path longer, finishing one hands it to the node above as its last subtree, and abandoning one
forgets it.
-/

namespace Stylesheet

open Rose

/-- An open node with its finished subtrees. -/
structure Layer (α : Type) where
  value : α
  children : List (Rose α)

namespace Layer

variable {α : Type}

def add (l : Layer α) (ts : List (Rose α)) : Layer α := ⟨l.value, l.children ++ ts⟩

/-- The slots written for a path of open nodes, innermost first. -/
def slots : List (Layer α) → List (Slot α)
  | [] => []
  | l :: ls => slots ls ++ ⟨1, l.value⟩ :: layouts l.children

/-- Where the open nodes are among the slots. -/
def opened : List (Layer α) → List ℕ
  | [] => []
  | _ :: ls => (slots ls).length :: opened ls

@[simp] lemma length_opened (ls : List (Layer α)) : (opened ls).length = ls.length := by
  induction ls with
  | nil => rfl
  | cons l ls ih => simp [opened, ih]

lemma slots_add (l : Layer α) (ts : List (Rose α)) (ls : List (Layer α)) :
    slots (l.add ts :: ls) = slots (l :: ls) ++ layouts ts := by
  simp [slots, add]

lemma length_slots_add (l : Layer α) (ts : List (Rose α)) (ls : List (Layer α)) :
    (slots (l.add ts :: ls)).length = (slots (l :: ls)).length + sizes ts := by
  simp [slots_add]

lemma length_slots_cons (l : Layer α) (ls : List (Layer α)) :
    (slots (l :: ls)).length = (slots ls).length + 1 + sizes l.children := by
  simp only [slots, List.length_append, List.length_cons, length_layouts]; omega

lemma modify_append_length {β : Type} (xs : List β) (y : β) (ys : List β) (f : β → β) :
    (xs ++ y :: ys).modify xs.length f = xs ++ f y :: ys := by
  induction xs with
  | nil => simp
  | cons x xs ih => simp [ih]

end Layer

/-! ### Results -/

@[simp] lemma ok_bind {ε β γ : Type} (a : β) (f : β → Except ε γ) :
    (Except.ok a >>= f) = f a := rfl

lemma exists_of_bind_eq_ok {ε α β : Type} {x : Except ε α} {f : α → Except ε β} {b : β}
    (h : x >>= f = .ok b) : ∃ a, x = .ok a ∧ f a = .ok b := by
  cases x with
  | error e => cases h
  | ok a => exact ⟨a, rfl, h⟩

lemma mapError_ok {ε ε' α : Type} (f : ε → ε') (a : α) :
    (Except.ok a : Except ε α).mapError f = .ok a := rfl

lemma ok_of_mapError {ε ε' α : Type} {f : ε → ε'} {x : Except ε α} {a : α}
    (h : x.mapError f = .ok a) : x = .ok a := by
  cases x with
  | error e => cases h
  | ok b =>
    cases h
    rfl

/-! ### Room for more slots -/

/-- Goes on if a tree of `n` slots can be counted. -/
def reserve {β : Type} (cap n : ℕ) (x : Except TreeError β) : Except TreeError β :=
  if n ≤ cap then x else .error (.overflow cap)

section reserve

variable {β γ : Type} {cap m n : ℕ}

lemma reserve_of_le (h : n ≤ cap) (x : Except TreeError β) : reserve cap n x = x := if_pos h

lemma reserve_bind (x : Except TreeError β) (f : β → Except TreeError γ) :
    (reserve cap n x >>= f) = reserve cap n (x >>= f) := by
  unfold reserve; split_ifs <;> rfl

lemma reserve_trans {x y : Except TreeError β} (h : m ≤ n)
    (hx : m ≤ cap → x = reserve cap n y) : reserve cap m x = reserve cap n y := by
  rw [reserve]
  split_ifs with hm
  · exact hx hm
  · rw [reserve, if_neg (by omega)]

end reserve

namespace Builder

variable {cap : ℕ} {α : Type}

/-- The builder on which the nodes of a path are open. -/
def ofLayers (cap : ℕ) (ls : List (Layer α)) : Builder cap α := ⟨Layer.slots ls, Layer.opened ls⟩

def ofTree (cap : ℕ) (t : Rose α) : Builder cap α := ⟨t.layout, []⟩

@[simp] lemma len_ofLayers (ls : List (Layer α)) :
    (ofLayers cap ls).len = (Layer.slots ls).length := rfl

lemma nextIndex_eq (n : ℕ) : nextIndex cap n = reserve cap (n + 1) (.ok n) := rfl

lemma leaf_ofLayers (l : Layer α) (ls : List (Layer α)) (v : α) :
    (ofLayers cap (l :: ls)).leaf v =
      reserve cap ((Layer.slots (l :: ls)).length + 1)
        (.ok ((Layer.slots (l :: ls)).length, ofLayers cap (l.add [.node v []] :: ls))) := by
  have hslots : Layer.slots (l :: ls) ++ [⟨1, v⟩] = Layer.slots (l.add [.node v []] :: ls) := by
    simp [Layer.slots_add]
  have hroot : ((ofLayers cap (l :: ls)).opened.isEmpty &&
      !(ofLayers cap (l :: ls)).isEmpty) = false := rfl
  rw [leaf, hroot, if_neg (by simp), nextIndex_eq, reserve_bind, ok_bind, len_ofLayers]
  simp only [ofLayers, hslots]
  rfl

lemma startNode_ofLayers (ls : List (Layer α)) (v : α) :
    (ofLayers cap ls).startNode v =
      reserve cap ((Layer.slots ls).length + 1)
        (.ok ((Layer.slots ls).length, ofLayers cap (⟨v, []⟩ :: ls))) := by
  -- the first node is the only one without an open node around it
  have hroot : ((ofLayers cap ls).opened.isEmpty &&
      !(ofLayers cap ls).isEmpty) = false := by
    cases ls <;> rfl
  rw [startNode, leaf, hroot, if_neg (by simp), nextIndex_eq, reserve_bind, reserve_bind, ok_bind]
  rfl

/-- What the innermost open node becomes when it is finished. -/
lemma slots_finished (l : Layer α) (ls : List (Layer α)) :
    (Layer.slots (l :: ls)).modify (Layer.slots ls).length
        (fun s => { s with skip := (Layer.slots (l :: ls)).length - (Layer.slots ls).length }) =
      Layer.slots ls ++ (Rose.node l.value l.children).layout := by
  rw [Layer.length_slots_cons]
  simp only [Layer.slots, Layer.modify_append_length, layout_node]
  congr 3
  omega

lemma finishNode_ofLayers (l k : Layer α) (ls : List (Layer α)) :
    (ofLayers cap (l :: k :: ls)).finishNode =
      .ok ((Layer.slots (k :: ls)).length,
        ofLayers cap (k.add [.node l.value l.children] :: ls)) := by
  have h := slots_finished l (k :: ls)
  simp only [finishNode, ofLayers, len, Layer.opened, Layer.slots_add, h, layouts_cons, layouts_nil,
    List.append_nil]
  rfl

lemma finishNode_root (l : Layer α) :
    (ofLayers cap [l]).finishNode = .ok (0, ofTree cap (.node l.value l.children)) := by
  have h := slots_finished l []
  simp only [finishNode, ofLayers, len, Layer.opened]
  rw [h]
  rfl

lemma abandonNode_ofLayers (l : Layer α) (ls : List (Layer α)) :
    (ofLayers cap (l :: ls)).abandonNode = .ok (ofLayers cap ls) := by
  simp only [abandonNode, ofLayers, Layer.opened, Layer.slots, List.take_left']
  rfl

lemma modifyValue_ofLayers (l : Layer α) (v : α) (ts : List (Rose α)) (ls : List (Layer α))
    (f : α → α) :
    (ofLayers cap (l.add [.node v ts] :: ls)).modifyValue (Layer.slots (l :: ls)).length f =
      .ok (ofLayers cap (l.add [.node (f v) ts] :: ls)) := by
  have hlen : (Layer.slots (l :: ls)).length <
      (ofLayers cap (l.add [.node v ts] :: ls)).len := by
    rw [len_ofLayers, Layer.length_slots_add, sizes_cons]
    have := size_pos (node v ts)
    omega
  rw [modifyValue, if_pos hlen]
  simp only [ofLayers, Layer.slots_add, layouts_cons, layouts_nil, layout_node, List.cons_append,
    Layer.modify_append_length]
  rfl

end Builder

end Stylesheet
