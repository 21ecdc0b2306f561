import Stylesheet.Proofs.Rose
import Stylesheet.Tree.Walk

/-!
The subtrees of a forest by their places in preorder. The slot at a place is that of a subtree, and
the slots of the whole subtree follow from there on; so the stretches that the slots own lie inside
each other or apart, and walking from sibling to sibling finds exactly the children of a node.
-/

namespace Stylesheet

/-- The skips of a forest in preorder, said of the numbers alone: every node owns its own slot and
no slot past the end, and what starts inside a subtree ends inside it. -/
structure WellFormed (skips : List ℕ) : Prop where
  pos : ∀ {i s : ℕ}, skips[i]? = some s → 0 < s
  inside : ∀ {i s : ℕ}, skips[i]? = some s → i + s ≤ skips.length
  nested : ∀ {i j s r : ℕ}, skips[i]? = some s → skips[j]? = some r → i < j → j < i + s →
    j + r ≤ i + s

namespace Rose

variable {α : Type}

def value : Rose α → α
  | .node v _ => v

def children : Rose α → List (Rose α)
  | .node _ ts => ts

@[simp] lemma value_node (v : α) (ts : List (Rose α)) : (node v ts).value = v := rfl
@[simp] lemma children_node (v : α) (ts : List (Rose α)) : (node v ts).children = ts := rfl

lemma size_eq (t : Rose α) : t.size = 1 + sizes t.children := by
  cases t with
  | node v ts => rfl

mutual

def subtrees : Rose α → List (Rose α)
  | .node v ts => .node v ts :: subtreesAll ts

def subtreesAll : List (Rose α) → List (Rose α)
  | [] => []
  | t :: ts => t.subtrees ++ subtreesAll ts

end

@[simp] lemma subtrees_node (v : α) (ts : List (Rose α)) :
    (node v ts).subtrees = node v ts :: subtreesAll ts := rfl
@[simp] lemma subtreesAll_nil : subtreesAll ([] : List (Rose α)) = [] := rfl
@[simp] lemma subtreesAll_cons (t : Rose α) (ts : List (Rose α)) :
    subtreesAll (t :: ts) = t.subtrees ++ subtreesAll ts := rfl

lemma subtrees_eq (t : Rose α) : t.subtrees = t :: subtreesAll t.children := by
  cases t with
  | node v ts => rfl

lemma mem_subtreesAll {u : Rose α} {ts : List (Rose α)} :
    u ∈ subtreesAll ts ↔ ∃ t ∈ ts, u ∈ t.subtrees := by
  induction ts with
  | nil => simp
  | cons t ts ih => simp [ih]

def slot (t : Rose α) : Slot α := ⟨t.size, t.value⟩

@[simp] lemma slot_skip (t : Rose α) : t.slot.skip = t.size := rfl
@[simp] lemma slot_value (t : Rose α) : t.slot.value = t.value := rfl

lemma layouts_eq_map (ts : List (Rose α)) : layouts ts = (subtreesAll ts).map slot := by
  induction ts using forest_induction with
  | nil => rfl
  | cons v ts us ihts ihus =>
    simp only [layouts_cons, layout_node, subtreesAll_cons, subtrees_node, List.map_append,
      List.map_cons, ihts, ihus]
    rfl

lemma layout_eq_map (t : Rose α) : t.layout = t.subtrees.map slot := by
  have h := layouts_eq_map [t]
  simpa using h

@[simp] lemma length_subtreesAll (ts : List (Rose α)) : (subtreesAll ts).length = sizes ts := by
  rw [← length_layouts, layouts_eq_map, List.length_map]

@[simp] lemma length_subtrees (t : Rose α) : t.subtrees.length = t.size := by
  rw [← length_layout, layout_eq_map, List.length_map]

lemma getElem?_layouts (ts : List (Rose α)) (i : ℕ) :
    (layouts ts)[i]? = (subtreesAll ts)[i]?.map slot := by
  rw [layouts_eq_map, List.getElem?_map]

lemma drop_subtreesAll {ts : List (Rose α)} {i : ℕ} {t : Rose α}
    (h : (subtreesAll ts)[i]? = some t) :
    ∃ more, (subtreesAll ts).drop i = t.subtrees ++ more := by
  induction ts using forest_induction generalizing i with
  | nil => simp at h
  | cons v ts us ihts ihus =>
    cases i with
    | zero =>
      obtain rfl : node v ts = t := by simpa using h
      exact ⟨subtreesAll us, rfl⟩
    | succ i =>
      simp only [subtreesAll_cons, subtrees_node, List.cons_append, List.getElem?_cons_succ,
        List.drop_succ_cons] at h ⊢
      rcases Nat.lt_or_ge i (sizes ts) with hi | hi
      · rw [List.getElem?_append_left (by simpa using hi)] at h
        obtain ⟨more, hmore⟩ := ihts h
        refine ⟨more ++ subtreesAll us, ?_⟩
        rw [List.drop_append_of_le_length (by simpa using Nat.le_of_lt hi), hmore,
          List.append_assoc]
      · rw [List.getElem?_append_right (by simpa using hi), length_subtreesAll] at h
        obtain ⟨more, hmore⟩ := ihus h
        refine ⟨more, ?_⟩
        have hnone : (subtreesAll ts).drop i = [] := List.drop_eq_nil_of_le (by simpa using hi)
        rw [List.drop_append, hnone, length_subtreesAll, hmore, List.nil_append]

lemma drop_layouts {ts : List (Rose α)} {i : ℕ} {t : Rose α}
    (h : (subtreesAll ts)[i]? = some t) : ∃ more, (layouts ts).drop i = t.layout ++ more := by
  obtain ⟨more, hmore⟩ := drop_subtreesAll h
  refine ⟨more.map slot, ?_⟩
  rw [layouts_eq_map, ← List.map_drop, hmore, List.map_append, layout_eq_map]

lemma add_size_le {ts : List (Rose α)} {i : ℕ} {t : Rose α}
    (h : (subtreesAll ts)[i]? = some t) : i + t.size ≤ sizes ts := by
  obtain ⟨more, hmore⟩ := drop_subtreesAll h
  have hlength := congrArg List.length hmore
  have hi : i < (subtreesAll ts).length := (List.getElem?_eq_some_iff.mp h).1
  simp only [List.length_drop, List.length_append, length_subtreesAll,
    length_subtrees] at hlength hi
  omega

lemma getElem?_subtrees_sub {ts : List (Rose α)} {i j : ℕ} {t : Rose α}
    (h : (subtreesAll ts)[i]? = some t) (hij : i ≤ j) (hj : j < i + t.size) :
    t.subtrees[j - i]? = (subtreesAll ts)[j]? := by
  obtain ⟨more, hmore⟩ := drop_subtreesAll h
  have hsplit : (subtreesAll ts)[j]? = ((subtreesAll ts).drop i)[j - i]? := by
    rw [List.getElem?_drop, Nat.add_sub_cancel' hij]
  rw [hsplit, hmore, List.getElem?_append_left]
  rw [length_subtrees]
  omega

/-- **A layout is well formed.** -/
theorem wellFormed_layouts (ts : List (Rose α)) : WellFormed ((layouts ts).map Slot.skip) := by
  have hskip : ∀ {i s : ℕ}, ((layouts ts).map Slot.skip)[i]? = some s →
      ∃ t, (subtreesAll ts)[i]? = some t ∧ t.size = s := by
    intro i s h
    rw [List.getElem?_map, getElem?_layouts, Option.map_map] at h
    exact Option.map_eq_some_iff.mp h
  refine ⟨?_, ?_, ?_⟩
  · intro i s h
    obtain ⟨t, -, rfl⟩ := hskip h
    exact size_pos t
  · intro i s h
    obtain ⟨t, ht, rfl⟩ := hskip h
    rw [List.length_map, length_layouts]
    exact add_size_le ht
  · intro i j s r hi hj hij hlt
    obtain ⟨t, ht, rfl⟩ := hskip hi
    obtain ⟨u, hu, rfl⟩ := hskip hj
    -- the inner subtree is one of the outer, so it ends there
    have hinner : (subtreesAll [t])[j - i]? = some u := by
      rw [subtreesAll_cons, subtreesAll_nil, List.append_nil,
        getElem?_subtrees_sub ht (Nat.le_of_lt hij) hlt, hu]
    have hle := add_size_le hinner
    simp only [sizes_cons, sizes_nil] at hle
    omega

/-! ### Walks -/

/-- Where the trees of a forest start if the first one starts at `i`. -/
def starts : ℕ → List (Rose α) → List ℕ
  | _, [] => []
  | i, t :: ts => i :: starts (i + t.size) ts

@[simp] lemma starts_nil (i : ℕ) : starts i ([] : List (Rose α)) = [] := rfl
@[simp] lemma starts_cons (i : ℕ) (t : Rose α) (ts : List (Rose α)) :
    starts i (t :: ts) = i :: starts (i + t.size) ts := rfl

lemma starts_append (i : ℕ) (ts us : List (Rose α)) :
    starts i (ts ++ us) = starts i ts ++ starts (i + sizes ts) us := by
  induction ts generalizing i with
  | nil => rfl
  | cons t ts ih => simp [ih, Nat.add_assoc]

lemma le_of_mem_starts {i j : ℕ} {ts : List (Rose α)} (h : j ∈ starts i ts) : i ≤ j := by
  induction ts generalizing i with
  | nil => simp at h
  | cons t ts ih =>
    rcases List.mem_cons.mp h with rfl | h
    · exact Nat.le_refl j
    · exact Nat.le_trans (Nat.le_add_right i t.size) (ih h)

lemma pairwise_starts (i : ℕ) (ts : List (Rose α)) : (starts i ts).Pairwise (· < ·) := by
  induction ts generalizing i with
  | nil => exact .nil
  | cons t ts ih =>
    refine List.pairwise_cons.mpr ⟨fun j hj => ?_, ih (i + t.size)⟩
    have hpos := size_pos t
    have hle := le_of_mem_starts hj
    omega

lemma mem_starts {ts : List (Rose α)} {k : ℕ} {u : Rose α} (h : (subtreesAll ts)[k]? = some u)
    (hu : ∀ t ∈ ts, u ∉ subtreesAll t.children) (i : ℕ) : i + k ∈ starts i ts := by
  induction ts generalizing i k with
  | nil => simp at h
  | cons t ts ih =>
    rw [subtreesAll_cons] at h
    rcases Nat.lt_or_ge k t.size with hk | hk
    · rw [List.getElem?_append_left (by rwa [length_subtrees]), subtrees_eq] at h
      cases k with
      | zero => exact List.mem_cons_self
      | succ k =>
        rw [List.getElem?_cons_succ] at h
        exact absurd (List.mem_of_getElem? h) (hu t List.mem_cons_self)
    · rw [List.getElem?_append_right (by rwa [length_subtrees]), length_subtrees] at h
      have hrest := ih h (fun w hw => hu w (List.mem_cons_of_mem t hw)) (i + t.size)
      rw [Nat.add_assoc, Nat.add_sub_cancel' hk] at hrest
      exact List.mem_cons_of_mem i hrest

/-- The trees of a forest start at slots of their own. -/
lemma exists_of_mem_starts {i j : ℕ} {ts : List (Rose α)} {slots more : List (Slot α)}
    (hslots : slots.drop i = layouts ts ++ more) (hj : j ∈ starts i ts) :
    ∃ t ∈ ts, slots[j]? = some t.slot := by
  induction ts generalizing i with
  | nil => simp at hj
  | cons t ts ih =>
    rw [layouts_cons, List.append_assoc] at hslots
    rcases List.mem_cons.mp hj with rfl | hj
    · refine ⟨t, by simp, ?_⟩
      have hhead : slots[j]? = (slots.drop j)[0]? := by simp
      rw [hhead, hslots, layout_eq_map, subtrees_eq]
      rfl
    · have hnext : slots.drop (i + t.size) = layouts ts ++ more := by
        rw [← List.drop_drop, hslots, ← length_layout, List.drop_left]
      obtain ⟨u, hu, hslot⟩ := ih hnext hj
      exact ⟨u, by simp [hu], hslot⟩

/-- **Siblings**: a walk over the slots of a forest stops at each of its trees. -/
theorem siblings_layouts {cap : ℕ} {skips : List ℕ} {i : ℕ} {ts : List (Rose α)} {more : List ℕ}
    (hskips : skips.drop i = (layouts ts).map Slot.skip ++ more) (hcap : i + sizes ts ≤ cap) :
    siblings cap skips ⟨i, i + sizes ts⟩ = .ok (starts i ts) := by
  induction ts generalizing i with
  | nil => rw [siblings]; simp
  | cons t ts ih =>
    have hpos := size_pos t
    obtain ⟨s, hs⟩ : ∃ s, t.size = s + 1 := ⟨t.size - 1, by omega⟩
    have hhead : skips[i]? = some (s + 1) := by
      have hdrop : skips[i]? = (skips.drop i)[0]? := by simp
      rw [hdrop, hskips, layouts_cons, layout_eq_map, subtrees_eq]
      simp [hs]
    have hnext : skips.drop (i + t.size) = (layouts ts).map Slot.skip ++ more := by
      rw [← List.drop_drop, hskips, layouts_cons, List.map_append, List.append_assoc]
      exact List.drop_left' (by simp)
    have hstart : i + s + 1 = i + t.size := by omega
    have hstop : i + t.size + sizes ts = i + sizes (t :: ts) := by rw [sizes_cons]; omega
    have hlt : i < i + sizes (t :: ts) := by rw [sizes_cons]; omega
    have hstored : stored cap (i + t.size) = .ok (i + t.size) := stored_of_le (by omega)
    have hwalk := ih hnext (by omega)
    rw [hstop] at hwalk
    rw [siblings, if_pos hlt, hhead]
    simp only [hstart, hstored, hwalk]
    rfl

lemma drop_children {ts : List (Rose α)} {i : ℕ} {t : Rose α} (h : (subtreesAll ts)[i]? = some t) :
    ∃ more, (layouts ts).drop (i + 1) = layouts t.children ++ more := by
  obtain ⟨more, hmore⟩ := drop_layouts h
  refine ⟨more, ?_⟩
  rw [← List.drop_drop, hmore, layout_eq_map, subtrees_eq, layouts_eq_map]
  simp

/-- **Children**: a walk over the children of a node finds where they start. -/
theorem children_layouts {cap : ℕ} {ts : List (Rose α)} {i : ℕ} {t : Rose α}
    (h : (subtreesAll ts)[i]? = some t) (hcap : sizes ts ≤ cap) :
    Stylesheet.children cap ((layouts ts).map Slot.skip) i = .ok (starts (i + 1) t.children) := by
  obtain ⟨more, hmore⟩ := drop_children h
  have hle := add_size_le h
  have hsize := size_eq t
  have hskip : ((layouts ts).map Slot.skip)[i]? = some t.size := by
    rw [List.getElem?_map, getElem?_layouts, h]
    rfl
  have hinner : ((layouts ts).map Slot.skip).drop (i + 1) =
      (layouts t.children).map Slot.skip ++ more.map Slot.skip := by
    rw [← List.map_drop, hmore, List.map_append]
  have hfirst : stored cap (i + 1) = .ok (i + 1) := stored_of_le (by omega)
  have hstop : stored cap (i + t.size) = .ok (i + t.size) := stored_of_le (by omega)
  have hcursor : Cursor.childrenOf cap ((layouts ts).map Slot.skip) i =
      .ok ⟨i + 1, i + 1 + sizes t.children⟩ := by
    rw [Cursor.childrenOf, skipAt_of_getElem? hskip, hfirst]
    change (stored cap (i + t.size) >>= fun stop => pure (Cursor.mk (i + 1) stop)) = _
    rw [hstop, hsize, ← Nat.add_assoc]
    rfl
  rw [Stylesheet.children, hcursor]
  exact siblings_layouts hinner (by omega)

end Rose

end Stylesheet
