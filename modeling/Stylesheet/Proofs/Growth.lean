import Stylesheet.Proofs.Subtrees
import Stylesheet.Tree.SkipTree

/-!
A new last child for a node of a forest. In the flat form the subtrees that hold the node grow by
one slot, and the new slot goes behind the subtree of the node; that is the layout of the forest
with the child. The nodes that were there before keep their values, their ancestors and their order.
-/

namespace Stylesheet

open Rose

namespace Rose

variable {α : Type}

mutual

/-- The tree with a new last child for the node at a preorder index. -/
def addChild (v : α) : ℕ → Rose α → Rose α
  | 0, .node w ts => .node w (ts ++ [.node v []])
  | i + 1, .node w ts => .node w (addChildIn v i ts)

def addChildIn (v : α) : ℕ → List (Rose α) → List (Rose α)
  | _, [] => []
  | i, t :: ts => if i < t.size then t.addChild v i :: ts else t :: addChildIn v (i - t.size) ts

end

lemma addChildIn_cons (v : α) (i : ℕ) (t : Rose α) (ts : List (Rose α)) :
    addChildIn v i (t :: ts) =
      if i < t.size then t.addChild v i :: ts else t :: addChildIn v (i - t.size) ts := rfl

end Rose

namespace SkipTree

variable {α : Type}

lemma growPath_append (d : ℕ) (xs ys : List (Slot α)) :
    growPath d xs.length (xs ++ ys) = xs ++ growPath (d - xs.length) 0 ys := by
  induction xs generalizing d with
  | nil => rfl
  | cons x xs ih =>
    rw [List.length_cons, List.cons_append, growPath, ih, List.cons_append, Nat.sub_sub,
      Nat.add_comm 1]

lemma growPath_inner {d : ℕ} {w : α} {ts : List (Rose α)} (h : d < sizes ts)
    (slots : List (Slot α)) :
    growPath (d + 1) 0 ((node w ts).layout ++ slots) =
      ⟨1 + sizes ts + 1, w⟩ :: growPath d 0 (layouts ts ++ slots) := by
  rw [layout_node, List.cons_append, growPath, if_pos (by simp only; omega)]
  rfl

lemma growPath_outer {d : ℕ} {t : Rose α} (h : t.size ≤ d) (slots : List (Slot α)) :
    growPath d 0 (t.layout ++ slots) = t.layout ++ growPath (d - t.size) 0 slots := by
  obtain ⟨w, ts⟩ := t
  rw [size_node] at h
  obtain ⟨d, rfl⟩ : ∃ e, d = e + 1 := ⟨d - 1, by omega⟩
  have hpass := growPath_append d (layouts ts) slots
  rw [length_layouts] at hpass
  rw [layout_node, List.cons_append, growPath, if_neg (by simp only; omega)]
  simp only [Nat.add_sub_cancel_left, hpass, size_node, List.cons_append]
  congr 3
  omega

lemma map_value_growPath (d n : ℕ) (slots : List (Slot α)) :
    (growPath d n slots).map Slot.value = slots.map Slot.value := by
  fun_induction growPath d n slots with
  | case1 => rfl
  | case2 d n s r ih => simp only [List.map_cons, ih]
  | case3 s r => rfl
  | case4 d s r h ih => simp only [List.map_cons, ih]; rfl
  | case5 d s r h ih => simp only [List.map_cons, ih]

lemma length_growPath (d n : ℕ) (slots : List (Slot α)) :
    (growPath d n slots).length = slots.length := by
  have hvalues := congrArg List.length (map_value_growPath d n slots)
  simpa using hvalues

lemma insertIdx_append {β : Type} (xs ys : List β) (k : ℕ) (y : β) :
    (xs ++ ys).insertIdx (xs.length + k) y = xs ++ ys.insertIdx k y := by
  induction xs with
  | nil => simp
  | cons x xs ih =>
    rw [List.length_cons, List.cons_append, Nat.add_right_comm, List.insertIdx_succ_cons, ih,
      List.cons_append]

/-- **Growing a layout** and putting the new slot behind the subtree is adding a child. -/
theorem insertIdx_growPath {ts : List (Rose α)} {i : ℕ} {t : Rose α}
    (h : (subtreesAll ts)[i]? = some t) (v : α) (more : List (Slot α)) :
    (growPath i 0 (layouts ts ++ more)).insertIdx (i + t.size) ⟨1, v⟩ =
        layouts (addChildIn v i ts) ++ more ∧
      sizes (addChildIn v i ts) = sizes ts + 1 := by
  induction ts using forest_induction generalizing i more with
  | nil => simp at h
  | cons w ts us ihts ihus =>
    rw [subtreesAll_cons] at h
    rw [layouts_cons, List.append_assoc, addChildIn_cons]
    rcases Nat.lt_or_ge i (node w ts).size with hi | hi
    · rw [List.getElem?_append_left (by rwa [length_subtrees]), subtrees_node] at h
      rw [if_pos hi, layouts_cons, List.append_assoc]
      cases i with
      | zero =>
        obtain rfl : node w ts = t := by simpa using h
        have hgrown : growPath 0 0 ((node w ts).layout ++ (layouts us ++ more)) =
            ⟨1 + sizes ts + 1, w⟩ :: (layouts ts ++ (layouts us ++ more)) := rfl
        have hplace : 0 + (node w ts).size = (layouts ts).length + 1 := by
          rw [size_node, length_layouts]; omega
        have hbehind := insertIdx_append (layouts ts) (layouts us ++ more) 0 ⟨1, v⟩
        rw [Nat.add_zero] at hbehind
        have hchild : addChild v 0 (node w ts) = node w (ts ++ [node v []]) := rfl
        rw [hgrown, hplace, List.insertIdx_succ_cons, hbehind, hchild]
        simp [Nat.add_assoc, Nat.add_comm]
      | succ i =>
        rw [List.getElem?_cons_succ] at h
        have hlt : i < sizes ts := by rw [size_node] at hi; omega
        have hchild : addChild v (i + 1) (node w ts) = node w (addChildIn v i ts) := rfl
        obtain ⟨hslots, hsizes⟩ := ihts h (layouts us ++ more)
        rw [growPath_inner hlt, Nat.add_right_comm i, List.insertIdx_succ_cons, hslots, hchild]
        simp [hsizes, Nat.add_assoc, Nat.add_comm]
    · rw [List.getElem?_append_right (by rwa [length_subtrees]), length_subtrees] at h
      obtain ⟨hslots, hsizes⟩ := ihus h more
      have hplace : i + t.size = (node w ts).layout.length + (i - (node w ts).size + t.size) := by
        rw [length_layout]; omega
      rw [if_neg (by omega), growPath_outer hi, hplace, insertIdx_append, hslots, layouts_cons,
        List.append_assoc]
      refine ⟨rfl, ?_⟩
      rw [sizes_cons, sizes_cons, hsizes, Nat.add_assoc]

/-- **Growing slot by slot**: a slot grows if it owns the node, and else stays. -/
theorem getElem?_growPath {ts : List (Rose α)} {d : ℕ} (hd : d < sizes ts) (more : List (Slot α))
    (i : ℕ) :
    (growPath d 0 (layouts ts ++ more))[i]? = (layouts ts ++ more)[i]?.map fun s =>
      if i ≤ d ∧ d < i + s.skip then s.grow else s := by
  induction ts using forest_induction generalizing i d more with
  | nil => simp at hd
  | cons w ts us ihts ihus =>
    rw [layouts_cons, List.append_assoc]
    rcases Nat.lt_or_ge d (node w ts).size with hi | hi
    · cases d with
      | zero =>
        cases i with
        | zero => simp [growPath]
        | succ i => simp [growPath]
      | succ d =>
        have hlt : d < sizes ts := by rw [size_node] at hi; omega
        rw [growPath_inner hlt]
        cases i with
        | zero => simp [Slot.grow, hlt, Nat.add_comm 1]
        | succ i =>
          rw [List.getElem?_cons_succ, ihts hlt]
          simp only [layout_node, List.cons_append, List.getElem?_cons_succ,
            Nat.add_le_add_iff_right, Nat.add_right_comm i 1, Nat.add_lt_add_iff_right]
    · rw [growPath_outer hi]
      rcases Nat.lt_or_ge i (node w ts).size with hin | hin
      · -- what a subtree owns that is passed over ends before the node
        rw [List.getElem?_append_left (by rwa [length_layout]),
          List.getElem?_append_left (by rwa [length_layout])]
        rcases hs : (node w ts).layout[i]? with _ | s
        · rfl
        · have hslot : (layouts [node w ts])[i]? = some s := by simpa using hs
          rw [getElem?_layouts] at hslot
          obtain ⟨t, ht, rfl⟩ := Option.map_eq_some_iff.mp hslot
          have hle := add_size_le ht
          simp only [sizes_cons, sizes_nil] at hle
          rw [Option.map_some, if_neg (by rw [slot_skip]; omega)]
      · rw [List.getElem?_append_right (by rwa [length_layout]),
          List.getElem?_append_right (by rwa [length_layout]), length_layout,
          ihus (by rw [sizes_cons] at hd; omega)]
        congr 1
        ext s : 1
        have hcond : i - (node w ts).size ≤ d - (node w ts).size ∧
            d - (node w ts).size < i - (node w ts).size + s.skip ↔ i ≤ d ∧ d < i + s.skip := by
          omega
        simp only [hcond]

end SkipTree

/-! ### Nodes keep their places in the tree -/

/-- The node at `j` is an ancestor of that at `i`: its subtree holds it. -/
def Above (skips : List ℕ) (j i : ℕ) : Prop := ∃ s, skips[j]? = some s ∧ j < i ∧ i < j + s

/-- Where a node is after a slot was put in at `child`. -/
def moved (child i : ℕ) : ℕ := if i < child then i else i + 1

/-- What a new last child changes and what it does not: the other nodes keep their values, their
ancestors and, since `moved` is increasing, their order. -/
structure Grows {α : Type} (old new : List (Slot α)) (parent child : ℕ) (v : α) : Prop where
  length : new.length = old.length + 1
  added : new[child]? = some ⟨1, v⟩
  /-- Nothing of the parent's subtree is behind the child. -/
  last : ∃ s, new[parent]? = some s ∧ parent + s.skip = child + 1
  values : ∀ i, new[moved child i]?.map Slot.value = old[i]?.map Slot.value
  above : ∀ j i, Above (new.map Slot.skip) (moved child j) (moved child i) ↔
    Above (old.map Slot.skip) j i
  aboveAdded : ∀ j, Above (new.map Slot.skip) (moved child j) child ↔
    j = parent ∨ Above (old.map Slot.skip) j parent

section Grows

variable {α : Type} {ts : List (Rose α)} {parent : ℕ} {t : Rose α}

/-- The slots after a child is added: those that own the parent are larger by one. -/
lemma getElem?_addChildIn (h : (subtreesAll ts)[parent]? = some t) (v : α) (i : ℕ) :
    (layouts (addChildIn v parent ts))[moved (parent + t.size) i]? =
      (layouts ts)[i]?.map fun s => if i ≤ parent ∧ parent < i + s.skip then s.grow else s := by
  have hle := add_size_le h
  have hpos := size_pos t
  have hlayout := (SkipTree.insertIdx_growPath h v []).1
  have hgrown := SkipTree.getElem?_growPath (show parent < sizes ts by omega) [] i
  simp only [List.append_nil] at hlayout hgrown
  rw [← hlayout, ← hgrown, moved]
  split_ifs with hi
  · rw [List.getElem?_insertIdx_of_lt hi]
  · rw [List.getElem?_insertIdx_of_gt (by omega), Nat.add_sub_cancel]

lemma skip_addChildIn (h : (subtreesAll ts)[parent]? = some t) (v : α) (i : ℕ) :
    ((layouts (addChildIn v parent ts)).map Slot.skip)[moved (parent + t.size) i]? =
      ((layouts ts).map Slot.skip)[i]?.map fun s =>
        if i ≤ parent ∧ parent < i + s then s + 1 else s := by
  rw [List.getElem?_map, List.getElem?_map, getElem?_addChildIn h, Option.map_map, Option.map_map]
  congr 1
  ext s : 1
  simp only [Function.comp_apply]
  split_ifs <;> rfl

/-- Where the subtree of a node lies that is before, behind or around the parent. -/
lemma owned_cases (h : (subtreesAll ts)[parent]? = some t) {j s : ℕ}
    (hj : ((layouts ts).map Slot.skip)[j]? = some s) :
    (j < parent → parent < j + s → parent + t.size ≤ j + s) ∧
      (parent < j → j < parent + t.size → j + s ≤ parent + t.size) ∧ (j = parent → s = t.size) := by
  have hwell := wellFormed_layouts ts
  have hparent : ((layouts ts).map Slot.skip)[parent]? = some t.size := by
    rw [List.getElem?_map, getElem?_layouts, h]; rfl
  refine ⟨hwell.nested hj hparent, hwell.nested hparent hj, ?_⟩
  rintro rfl
  rw [hparent] at hj
  exact (Option.some.inj hj).symm

/-- **A new last child** leaves the other nodes where they are in the tree. -/
theorem grows_addChildIn (h : (subtreesAll ts)[parent]? = some t) (v : α) :
    Grows (layouts ts) (layouts (addChildIn v parent ts)) parent (parent + t.size) v := by
  have hle := add_size_le h
  have hpos := size_pos t
  obtain ⟨hlayout, hsizes⟩ := SkipTree.insertIdx_growPath h v []
  simp only [List.append_nil] at hlayout
  refine ⟨?_, ?_, ?_, ?_, ?_, ?_⟩
  · rw [length_layouts, length_layouts, hsizes]
  · rw [← hlayout, List.getElem?_insertIdx_self, SkipTree.length_growPath, length_layouts,
      if_pos hle]
  · have hslot := getElem?_addChildIn h v parent
    rw [moved, if_pos (by omega), getElem?_layouts ts, h, Option.map_some, Option.map_some,
      if_pos (by rw [slot_skip]; omega)] at hslot
    exact ⟨t.slot.grow, hslot, rfl⟩
  · intro i
    rw [getElem?_addChildIn h, Option.map_map]
    congr 1
    ext s : 1
    simp only [Function.comp_apply]
    split_ifs <;> rfl
  · intro j i
    unfold Above
    rw [skip_addChildIn h]
    rcases hj : ((layouts ts).map Slot.skip)[j]? with _ | s
    · simp
    · obtain ⟨haround, hinside, hself⟩ := owned_cases h hj
      simp only [Option.map_some, Option.some.injEq, exists_eq_left', moved]
      split_ifs <;> omega
  · intro j
    unfold Above
    rw [skip_addChildIn h]
    rcases hj : ((layouts ts).map Slot.skip)[j]? with _ | s
    · have hne : j ≠ parent := by
        rintro rfl
        rw [List.getElem?_map, getElem?_layouts, h] at hj
        cases hj
      simp [hne]
    · obtain ⟨haround, hinside, hself⟩ := owned_cases h hj
      simp only [Option.map_some, Option.some.injEq, exists_eq_left', moved]
      split_ifs <;> omega

end Grows

/-! ### In a single tree -/

section tree

variable {α : Type} {tree t : Rose α} {parent : ℕ}

lemma subtreesAll_singleton (t : Rose α) : subtreesAll [t] = t.subtrees := by simp

lemma addChildIn_singleton (h : tree.subtrees[parent]? = some t) (v : α) :
    addChildIn v parent [tree] = [tree.addChild v parent] := by
  have hlt : parent < tree.subtrees.length := (List.getElem?_eq_some_iff.mp h).1
  rw [length_subtrees] at hlt
  rw [addChildIn_cons, if_pos hlt]

lemma add_size_le_size (h : tree.subtrees[parent]? = some t) : parent + t.size ≤ tree.size := by
  rw [← subtreesAll_singleton] at h
  simpa using add_size_le h

lemma layout_addChild (h : tree.subtrees[parent]? = some t) (v : α) :
    (SkipTree.growPath parent 0 tree.layout).insertIdx (parent + t.size) ⟨1, v⟩ =
        (tree.addChild v parent).layout ∧
      (tree.addChild v parent).size = tree.size + 1 := by
  have hadd := addChildIn_singleton h v
  rw [← subtreesAll_singleton] at h
  have hgrown := SkipTree.insertIdx_growPath h v []
  rw [hadd] at hgrown
  simpa using hgrown

lemma grows_addChild (h : tree.subtrees[parent]? = some t) (v : α) :
    Grows tree.layout (tree.addChild v parent).layout parent (parent + t.size) v := by
  have hadd := addChildIn_singleton h v
  rw [← subtreesAll_singleton] at h
  have hgrows := grows_addChildIn h v
  rw [hadd] at hgrows
  simpa using hgrows

end tree

end Stylesheet
