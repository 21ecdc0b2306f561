import Stylesheet.Proofs.Outline
import Stylesheet.Proofs.Journal

/-!
What the walks over a flat tree find, in terms of the ordered tree that it is the layout of. Its
nodes are numbered in preorder; the walks answer with these numbers. One jumps from sibling to
sibling and the other keeps where the subtrees around it end, so that they have nothing in common
but the tree.
-/

namespace Stylesheet

open Rose

/-- A tree that some calls and finished drafts have built. -/
inductive Built (cap : ℕ) {α : Type} : SkipTree cap α → Prop
  | empty : Built cap .empty
  | finish {edits : List (Edit α)} {t : SkipTree cap α}
      (finished : (Builder.after cap edits).finish = .ok t) : Built cap t
  | call {t u : SkipTree cap α} {c : Call α} {i : ℕ} (built : Built cap t)
      (called : t.call c = .ok (i, u)) : Built cap u

namespace Rose

variable {α : Type}

mutual

/-- The tree with its nodes numbered in preorder, itself as `i`. -/
def numbered (i : ℕ) : Rose α → Rose ℕ
  | .node _ ts => .node i (numberedAll (i + 1) ts)

def numberedAll (i : ℕ) : List (Rose α) → List (Rose ℕ)
  | [] => []
  | t :: ts => t.numbered i :: numberedAll (i + t.size) ts

end

mutual

/-- The nodes in preorder, each with its proper ancestors; `above` are those of the tree itself. -/
def trails (above : List α) : Rose α → List (α × List α)
  | .node v ts => (v, above) :: trailsAll (v :: above) ts

def trailsAll (above : List α) : List (Rose α) → List (α × List α)
  | [] => []
  | t :: ts => t.trails above ++ trailsAll above ts

end

@[simp] lemma numbered_node (i : ℕ) (v : α) (ts : List (Rose α)) :
    (node v ts).numbered i = node i (numberedAll (i + 1) ts) := rfl
@[simp] lemma numberedAll_nil (i : ℕ) : numberedAll i ([] : List (Rose α)) = [] := rfl
@[simp] lemma numberedAll_cons (i : ℕ) (t : Rose α) (ts : List (Rose α)) :
    numberedAll i (t :: ts) = t.numbered i :: numberedAll (i + t.size) ts := rfl
@[simp] lemma trails_node (above : List α) (v : α) (ts : List (Rose α)) :
    (node v ts).trails above = (v, above) :: trailsAll (v :: above) ts := rfl
@[simp] lemma trailsAll_nil (above : List α) : trailsAll above ([] : List (Rose α)) = [] := rfl
@[simp] lemma trailsAll_cons (above : List α) (t : Rose α) (ts : List (Rose α)) :
    trailsAll above (t :: ts) = t.trails above ++ trailsAll above ts := rfl

lemma value_numbered (i : ℕ) (t : Rose α) : (t.numbered i).value = i := by
  cases t with
  | node v ts => rfl

lemma children_numbered (i : ℕ) (t : Rose α) :
    (t.numbered i).children = numberedAll (i + 1) t.children := by
  cases t with
  | node v ts => rfl

@[simp] lemma sizes_numberedAll (i : ℕ) (ts : List (Rose α)) :
    sizes (numberedAll i ts) = sizes ts := by
  induction ts using forest_induction generalizing i with
  | nil => rfl
  | cons v ts us ihts ihus => simp [ihts, ihus]

@[simp] lemma size_numbered (i : ℕ) (t : Rose α) : (t.numbered i).size = t.size := by
  have h := sizes_numberedAll i [t]
  simpa using h

/-- **The numbers are places**: the subtree at a place has that number. -/
lemma getElem?_subtreesAll_numberedAll (i : ℕ) (ts : List (Rose α)) (k : ℕ) :
    (subtreesAll (numberedAll i ts))[k]? = (subtreesAll ts)[k]?.map (numbered (i + k)) := by
  induction ts using forest_induction generalizing i k with
  | nil => rfl
  | cons v ts us ihts ihus =>
    cases k with
    | zero => rfl
    | succ k =>
      simp only [numberedAll_cons, numbered_node, subtreesAll_cons, subtrees_node, List.cons_append,
        List.getElem?_cons_succ]
      rcases Nat.lt_or_ge k (sizes ts) with hk | hk
      · rw [List.getElem?_append_left (by simpa using hk),
          List.getElem?_append_left (by simpa using hk), ihts, Nat.add_assoc, Nat.add_comm 1]
      · rw [List.getElem?_append_right (by simpa using hk),
          List.getElem?_append_right (by simpa using hk), ihus]
        have hplace : i + (node v ts).size + (k - sizes ts) = i + (k + 1) := by
          rw [size_node]
          omega
        simp only [length_subtreesAll, sizes_numberedAll, hplace]

lemma map_value_numberedAll (i : ℕ) (ts : List (Rose α)) :
    (numberedAll i ts).map value = starts i ts := by
  induction ts generalizing i with
  | nil => rfl
  | cons t ts ih => simp [ih, value_numbered]

/-- **The numbers come one after the other**, and a node is as deep as it has ancestors. -/
lemma map_trailsAll (above : List ℕ) (i : ℕ) (ts : List (Rose α)) :
    (trailsAll above (numberedAll i ts)).map (fun p => (p.1, p.2.length)) =
      (List.range' i (sizes ts)).zip (depthsAll above.length ts) := by
  induction ts using forest_induction generalizing above i with
  | nil => rfl
  | cons v ts us ihts ihus =>
    rw [zip_depthsAll_cons, numberedAll_cons, numbered_node, trailsAll_cons, trails_node,
      List.cons_append, List.map_cons, List.map_append, ihts, ihus, size_node, List.length_cons,
      ← Nat.add_assoc]

lemma map_trails (i : ℕ) (t : Rose α) :
    ((t.numbered i).trails []).map (fun p => (p.1, p.2.length)) =
      (List.range' i t.size).zip (t.depths 0) := by
  have h := map_trailsAll [] i [t]
  simpa using h

/-! ### Depths along the walk -/

lemma le_of_mem_depthsAll {d e : ℕ} {ts : List (Rose α)} (h : e ∈ depthsAll d ts) : d ≤ e := by
  induction ts using forest_induction generalizing d with
  | nil => simp at h
  | cons v ts us ihts ihus =>
    simp only [depthsAll_cons, depths_node, List.cons_append, List.mem_cons,
      List.mem_append] at h
    rcases h with rfl | h | h
    · exact Nat.le_refl e
    · exact Nat.le_of_succ_le (ihts h)
    · exact ihus h

lemma filter_zip_depthsAll (i d : ℕ) (ts : List (Rose α)) :
    (((List.range' i (sizes ts)).zip (depthsAll d ts)).filter fun p => p.2 == d).map Prod.fst =
      starts i ts := by
  induction ts using forest_induction generalizing i with
  | nil => rfl
  | cons v ts us _ ihus =>
    have hdeeper : ((List.range' (i + 1) (sizes ts)).zip (depthsAll (d + 1) ts)).filter
        (fun p => p.2 == d) = [] := by
      rw [List.filter_eq_nil_iff]
      intro p hp
      have hle := le_of_mem_depthsAll (List.of_mem_zip hp).2
      simp only [beq_iff_eq]
      omega
    rw [zip_depthsAll_cons, List.filter_cons_of_pos (by simp), List.map_cons, List.filter_append,
      hdeeper, List.nil_append, ihus, starts_cons, size_node, Nat.add_assoc]

/-- Of a subtree in preorder, the slots at depth one are the children. -/
lemma filter_zip_depths (i : ℕ) (t : Rose α) :
    (((List.range' i t.size).zip (t.depths 0)).filter fun p => p.2 == 1).map Prod.fst =
      starts (i + 1) t.children := by
  obtain ⟨v, ts⟩ := t
  rw [size_node, Nat.add_comm 1, List.range'_succ, depths_node, List.zip_cons_cons,
    List.filter_cons_of_neg (by simp)]
  exact filter_zip_depthsAll (i + 1) 1 ts

/-! ### Where the trees of a forest lie -/

section places

variable {i : ℕ} {ts : List (Rose α)} {slots more : List (Slot α)}

lemma flatMap_starts (hslots : slots.drop i = layouts ts ++ more) :
    (starts i ts).flatMap (fun j => List.range' j ((slots.map Slot.skip).getD j 0)) =
      List.range' i (sizes ts) := by
  induction ts generalizing i with
  | nil => rfl
  | cons t ts ih =>
    rw [layouts_cons, List.append_assoc] at hslots
    have hhead : (slots.map Slot.skip).getD i 0 = t.size := by
      have hslot : slots[i]? = (slots.drop i)[0]? := by simp
      rw [List.getD_eq_getElem?_getD, List.getElem?_map, hslot, hslots, layout_eq_map, subtrees_eq]
      rfl
    have hnext : slots.drop (i + t.size) = layouts ts ++ more := by
      rw [← List.drop_drop, hslots, ← length_layout, List.drop_left]
    rw [starts_cons, List.flatMap_cons, ih hnext, hhead, sizes_cons, List.range'_append_1]

lemma siblings_from {cap k j : ℕ} (hslots : slots.drop i = layouts ts ++ more)
    (hcap : i + sizes ts ≤ cap) (hj : (starts i ts)[k]? = some j) :
    siblings cap (slots.map Slot.skip) ⟨j, i + sizes ts⟩ = .ok ((starts i ts).drop k) := by
  induction ts generalizing i k with
  | nil => simp at hj
  | cons t ts ih =>
    cases k with
    | zero =>
      obtain rfl : i = j := by simpa using hj
      have hskips : (slots.map Slot.skip).drop i =
          (layouts (t :: ts)).map Slot.skip ++ more.map Slot.skip := by
        rw [← List.map_drop, hslots, List.map_append]
      exact siblings_layouts hskips hcap
    | succ k =>
      rw [layouts_cons, List.append_assoc] at hslots
      have hnext : slots.drop (i + t.size) = layouts ts ++ more := by
        rw [← List.drop_drop, hslots, ← length_layout, List.drop_left]
      rw [sizes_cons, ← Nat.add_assoc] at hcap ⊢
      exact ih hnext hcap hj

end places

end Rose

/-! ### Built trees -/

variable {cap : ℕ} {α : Type} {t : SkipTree cap α}

/-- A finished draft is a layout, for no node of it is open. -/
lemma Drafts.exists_layouts {b : Builder cap α} {j : Journal α} (h : Drafts cap b j)
    (hclosed : b.opened = []) : ∃ tree : Option (Rose α), b.slots = layouts tree.toList := by
  cases h with
  | path ls =>
    cases ls with
    | nil => exact ⟨none, rfl⟩
    | cons l ls => cases hclosed
  | tree t => exact ⟨some t, by simp [Builder.ofTree]⟩

/-- **A built tree** is the layout of an ordered tree that is not too large. -/
lemma Built.exists_layouts (h : Built cap t) :
    ∃ tree : Option (Rose α), t.slots = layouts tree.toList ∧ t.len ≤ cap := by
  induction h with
  | empty => exact ⟨none, rfl, Nat.zero_le cap⟩
  | @finish edits t hfinish =>
    rw [Builder.finish] at hfinish
    split_ifs at hfinish with hopened
    cases hfinish
    obtain ⟨tree, htree⟩ := (Drafts.after edits).exists_layouts (List.isEmpty_iff.mp hopened)
    exact ⟨tree, htree, (Builder.ordered_after edits).counted⟩
  | @call t u c i _ hcall ih =>
    obtain ⟨tree, htree, -⟩ := ih
    obtain rfl : t = ⟨layouts tree.toList⟩ := by
      rw [← htree]
    rw [Call.call_layouts] at hcall
    rcases hon : c.on cap tree with e | ⟨k, new⟩
    · rw [hon] at hcall
      cases hcall
    · rw [hon] at hcall
      cases hcall
      obtain ⟨hroom, hsize⟩ := Call.on_eq_ok hon
      refine ⟨some new, by simp, ?_⟩
      rw [SkipTree.len, length_layout, hsize]
      exact hroom

/-- What the walks from the node `i` find, where `n` is the subtree there with numbered nodes. -/
structure Walks (t : SkipTree cap α) (i : ℕ) (n : Rose ℕ) : Prop where
  skip : t.skip i = .ok n.size
  children : t.children i = .ok (n.children.map value)
  /-- What the children own lies side by side and is all that the node owns besides its slot. -/
  owned : (n.children.map value).flatMap (fun c => List.range' c (t.skips.getD c 0)) =
    List.range' (i + 1) (n.size - 1)
  preorder : t.preorder i = .ok ((n.trails []).map fun p => (p.1, p.2.length))
  increasing : (n.trails []).map Prod.fst = List.range' i n.size
  /-- At depth one are the children. -/
  first : ∀ walk, t.preorder i = .ok walk →
    t.children i = .ok ((walk.filter fun p => p.2 == 1).map Prod.fst)
  siblings : ∀ k c, (n.children.map value)[k]? = some c →
    t.siblings ⟨c, i + n.size⟩ = .ok ((n.children.map value).drop k)

lemma walks_layouts {ts : List (Rose α)} {i : ℕ} {u : Rose α} (ht : t.slots = layouts ts)
    (hcap : t.len ≤ cap) (hu : (subtreesAll ts)[i]? = some u) : Walks t i (u.numbered i) := by
  obtain ⟨slots⟩ := t
  obtain rfl : slots = layouts ts := ht
  rw [SkipTree.len, length_layouts] at hcap
  obtain ⟨more, hmore⟩ := drop_children hu
  have hsize : i + u.size = i + 1 + sizes u.children := by
    rw [size_eq, Nat.add_assoc]
  have hskip : ((layouts ts).map Slot.skip)[i]? = some u.size := by
    rw [List.getElem?_map, getElem?_layouts, hu]
    rfl
  have hpreorder : preorder cap ((layouts ts).map Slot.skip) i = _ := preorder_layouts hu hcap
  have hchildren : children cap ((layouts ts).map Slot.skip) i = _ := children_layouts hu hcap
  have hfirst : ((u.numbered i).trails []).map Prod.fst =
      (((u.numbered i).trails []).map fun p => (p.1, p.2.length)).map Prod.fst := by
    rw [List.map_map]
    rfl
  have hlength : (u.depths 0).length = u.size := by simp [depths_eq]
  refine ⟨?_, ?_, ?_, ?_, ?_, ?_, ?_⟩
  · rw [size_numbered]
    exact skipAt_of_getElem? hskip
  · rw [children_numbered, map_value_numberedAll]
    exact hchildren
  · rw [children_numbered, map_value_numberedAll, size_numbered, size_eq, Nat.add_sub_cancel_left]
    exact flatMap_starts hmore
  · rw [map_trails]
    exact hpreorder
  · rw [hfirst, map_trails, size_numbered, List.map_fst_zip (by simp [hlength])]
  · intro walk hwalk
    obtain rfl := Except.ok.inj (hpreorder.symm.trans hwalk)
    rw [filter_zip_depths]
    exact hchildren
  · rw [children_numbered, map_value_numberedAll, size_numbered, hsize]
    intro k c hc
    have hle := add_size_le hu
    exact siblings_from hmore (by omega) hc

/-- **The walks read the tree back.** Whatever calls and finished drafts have built a tree, it is
the layout of an ordered tree. From each of its nodes the walks find the subtree that is there: the
children in order, all nodes in preorder with the number of their ancestors, and the siblings from
any child on. None of them fails, also if there is no room for another node. -/
theorem walks_read_tree (h : Built cap t) :
    (∃ tree : Option (Rose α), t.slots = layouts tree.toList) ∧ t.len ≤ cap ∧
      ∀ tree : Option (Rose α), t.slots = layouts tree.toList → ∀ i < t.len,
        ∃ n, (subtreesAll (numberedAll 0 tree.toList))[i]? = some n ∧ n.value = i ∧
          Walks t i n := by
  obtain ⟨tree, htree, hcap⟩ := h.exists_layouts
  refine ⟨⟨tree, htree⟩, hcap, ?_⟩
  intro tree htree i hi
  rw [SkipTree.len, htree, length_layouts, ← length_subtreesAll] at hi
  have hu := List.getElem?_eq_getElem hi
  refine ⟨numbered i _, ?_, value_numbered i _, walks_layouts htree hcap hu⟩
  rw [getElem?_subtreesAll_numberedAll, hu, Nat.zero_add]
  rfl

/-- A draft of two nodes gets a third one, which leaves no room: from the last node there is still
nowhere to go, and from the first one there are three levels. -/
theorem walks_read_full_tree :
    ∃ t : SkipTree (capacity 2) Bool, Built (capacity 2) t ∧ t.len = capacity 2 ∧
      Walks t 2 (.node 2 []) ∧ t.children 2 = .ok [] ∧ t.preorder 2 = .ok [(2, 0)] ∧
      t.preorder 0 = .ok [(0, 0), (1, 1), (2, 2)] := by
  have hdraft : Built (capacity 2) ⟨[⟨2, true⟩, ⟨1, false⟩]⟩ :=
    @Built.finish _ _ [.start true, .leaf false, .finish] _ rfl
  have hbuilt : Built (capacity 2) ⟨[⟨3, true⟩, ⟨2, false⟩, ⟨1, true⟩]⟩ :=
    .call (c := .child 1 true) (i := 2) hdraft rfl
  obtain ⟨-, -, hwalks⟩ := walks_read_tree hbuilt
  have htree := hwalks (some (.node true [.node false [.node true []]])) rfl
  obtain ⟨last, hlast, -, hend⟩ := htree 2 (by decide)
  obtain ⟨root, hroot, -, hall⟩ := htree 0 (by decide)
  obtain rfl : node 2 [] = last := Option.some.inj hlast
  obtain rfl : node 0 [node 1 [node 2 []]] = root := Option.some.inj hroot
  exact ⟨_, hbuilt, rfl, hend, hend.children, hend.preorder, hall.preorder⟩

end Stylesheet
