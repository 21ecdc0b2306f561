import Stylesheet.Proofs.Subtrees

/-!
The walk through a tree in preorder. It keeps where the subtrees around it end, and drops those it
has left, so that their number is the depth of the slot it is at. That is how many slots before it
own it.
-/

namespace Stylesheet

/-- How many of the slots before a slot own it. -/
def depthAt (skips : List ℕ) (i : ℕ) : ℕ :=
  (List.range i).countP fun j => skips[j]?.any fun s => i < j + s

namespace Rose

variable {α : Type}

mutual

/-- The depths of the nodes in preorder, if that of the tree itself is `d`. -/
def depths (d : ℕ) : Rose α → List ℕ
  | .node _ ts => d :: depthsAll (d + 1) ts

def depthsAll (d : ℕ) : List (Rose α) → List ℕ
  | [] => []
  | t :: ts => t.depths d ++ depthsAll d ts

end

@[simp] lemma depths_node (d : ℕ) (v : α) (ts : List (Rose α)) :
    (node v ts).depths d = d :: depthsAll (d + 1) ts := rfl
@[simp] lemma depthsAll_nil (d : ℕ) : depthsAll d ([] : List (Rose α)) = [] := rfl
@[simp] lemma depthsAll_cons (d : ℕ) (t : Rose α) (ts : List (Rose α)) :
    depthsAll d (t :: ts) = t.depths d ++ depthsAll d ts := rfl

@[simp] lemma length_depthsAll (d : ℕ) (ts : List (Rose α)) :
    (depthsAll d ts).length = sizes ts := by
  induction ts using forest_induction generalizing d with
  | nil => rfl
  | cons v ts us ihts ihus =>
    simp only [depthsAll_cons, depths_node, List.length_append, List.length_cons, ihts, ihus,
      sizes_cons, size_node]
    omega

/-! ### The walk -/

section walk

variable {cap : ℕ} {skips : List ℕ}

lemma preorderFrom_left {e i stop : ℕ} (h : e ≤ i) (ends : List ℕ) :
    preorderFrom cap skips (e :: ends) ⟨i, stop⟩ = preorderFrom cap skips ends ⟨i, stop⟩ := by
  rw [preorderFrom, preorderFrom.eq_def cap skips ends]
  simp only [List.dropWhile_cons, decide_eq_true h, if_true]

/-- One slot, if the walk is still in all the subtrees around it. -/
lemma preorderFrom_slot {ends : List ℕ} {i s stop : ℕ} (hstop : i < stop) (hcap : i ≤ cap)
    (hends : ∀ e ∈ ends, i < e) (hskip : skips[i]? = some s) :
    preorderFrom cap skips ends ⟨i, stop⟩ =
      (preorderFrom cap skips ((i + s) :: ends) ⟨i + 1, stop⟩).map ((i, ends.length) :: ·) := by
  have haround : ends.dropWhile (· ≤ i) = ends := by
    cases ends with
    | nil => rfl
    | cons e ends =>
      have he := hends e List.mem_cons_self
      rw [List.dropWhile_cons_of_neg (by simpa using he)]
  rw [preorderFrom, if_pos hstop]
  simp only [haround, skipAt_of_getElem? hskip, stored_of_le hcap]
  change (preorderFrom cap skips ((i + s) :: ends) ⟨i + 1, stop⟩ >>= fun walk =>
    pure ((i, ends.length) :: walk)) = _
  rcases preorderFrom cap skips ((i + s) :: ends) ⟨i + 1, stop⟩ <;> rfl

lemma zip_depthsAll_cons (i d : ℕ) (v : α) (ts us : List (Rose α)) :
    (List.range' i (sizes (node v ts :: us))).zip (depthsAll d (node v ts :: us)) =
      (i, d) :: ((List.range' (i + 1) (sizes ts)).zip (depthsAll (d + 1) ts) ++
        (List.range' (i + 1 + sizes ts) (sizes us)).zip (depthsAll d us)) := by
  have hsizes : sizes (node v ts :: us) = (sizes ts + sizes us) + 1 := by
    rw [sizes_cons, size_node]
    omega
  have happend : List.range' (i + 1) (sizes ts + sizes us) =
      List.range' (i + 1) (sizes ts) ++ List.range' (i + 1 + sizes ts) (sizes us) := by
    rw [List.range'_append_1]
  rw [hsizes, List.range'_succ, depthsAll_cons, depths_node, List.cons_append, List.zip_cons_cons,
    happend, List.zip_append (by rw [List.length_range', length_depthsAll])]

/-- **The walk over a forest** visits its slots one after the other, each at its depth, and then
goes on. -/
theorem preorderFrom_layouts (ts : List (Rose α)) {i stop : ℕ} {ends more : List ℕ}
    (hskips : skips.drop i = (layouts ts).map Slot.skip ++ more) (hstop : i + sizes ts ≤ stop)
    (hcap : i + sizes ts ≤ cap) (hends : ∀ e ∈ ends, i + sizes ts ≤ e) :
    preorderFrom cap skips ends ⟨i, stop⟩ =
      (preorderFrom cap skips ends ⟨i + sizes ts, stop⟩).map
        ((List.range' i (sizes ts)).zip (depthsAll ends.length ts) ++ ·) := by
  induction ts using forest_induction generalizing i ends more with
  | nil =>
    simp only [sizes_nil, Nat.add_zero, depthsAll_nil, List.zip_nil_right, List.nil_append]
    rcases preorderFrom cap skips ends ⟨i, stop⟩ <;> rfl
  | cons v ts us ihts ihus =>
    have hsizes : sizes (node v ts :: us) = 1 + sizes ts + sizes us := rfl
    rw [hsizes] at hstop hcap hends
    have hskip : skips[i]? = some (1 + sizes ts) := by
      have hhead : skips[i]? = (skips.drop i)[0]? := by simp
      rw [hhead, hskips]
      rfl
    have hinner : skips.drop (i + 1) =
        (layouts ts).map Slot.skip ++ ((layouts us).map Slot.skip ++ more) := by
      rw [← List.drop_drop, hskips, layouts_cons, layout_node, List.cons_append, List.map_cons,
        List.map_append, List.cons_append, List.drop_succ_cons, List.drop_zero, List.append_assoc]
    have houter : skips.drop (i + 1 + sizes ts) = (layouts us).map Slot.skip ++ more := by
      rw [← List.drop_drop, hinner]
      exact List.drop_left' (by simp)
    have hinside : ∀ e ∈ (i + (1 + sizes ts)) :: ends, i + 1 + sizes ts ≤ e := by
      intro e he
      rcases List.mem_cons.mp he with rfl | he
      · omega
      · have := hends e he
        omega
    have hbehind : ∀ e ∈ ends, i + 1 + sizes ts + sizes us ≤ e := by
      intro e he
      have := hends e he
      omega
    have hend : i + 1 + sizes ts + sizes us = i + sizes (node v ts :: us) := by omega
    rw [preorderFrom_slot (by omega) (by omega) (fun e he => by have := hends e he; omega) hskip,
      ihts hinner (by omega) (by omega) hinside, preorderFrom_left (by omega),
      ihus houter (by omega) (by omega) hbehind, hend, zip_depthsAll_cons]
    rcases preorderFrom cap skips ends ⟨i + sizes (node v ts :: us), stop⟩ with e | walk
    · rfl
    · simp only [Except.map, List.cons_append, List.append_assoc, List.length_cons]

/-- **The walk through a tree** visits all its slots. -/
theorem preorder_layouts {ts : List (Rose α)} {i : ℕ} {t : Rose α}
    (h : (subtreesAll ts)[i]? = some t) (hcap : sizes ts ≤ cap) :
    preorder cap ((layouts ts).map Slot.skip) i =
      .ok ((List.range' i t.size).zip (t.depths 0)) := by
  obtain ⟨more, hmore⟩ := drop_layouts h
  have hle := add_size_le h
  have hskip : ((layouts ts).map Slot.skip)[i]? = some t.size := by
    rw [List.getElem?_map, getElem?_layouts, h]
    rfl
  have hskips : ((layouts ts).map Slot.skip).drop i =
      (layouts [t]).map Slot.skip ++ more.map Slot.skip := by
    rw [← List.map_drop, hmore, List.map_append]
    simp
  have hsizes : sizes [t] = t.size := by simp
  have hwalk := @preorderFrom_layouts α cap _ [t] i (i + t.size) [] _ hskips (by omega) (by omega)
    (by simp)
  have hstop : preorderFrom cap ((layouts ts).map Slot.skip) [] ⟨i + sizes [t], i + t.size⟩ =
      .ok [] := by
    rw [preorderFrom, if_neg (by simp)]
  rw [hstop] at hwalk
  unfold preorder
  rw [hskip]
  simp only [hwalk, hsizes, Except.map, List.append_nil, depthsAll_cons, depthsAll_nil,
    List.length_nil]

end walk

/-! ### Depths -/

lemma depthAt_inner (v : α) {ts : List (Rose α)} (us : List (Rose α)) {k : ℕ} (hk : k < sizes ts) :
    depthAt ((layouts (node v ts :: us)).map Slot.skip) (k + 1) =
      depthAt ((layouts ts).map Slot.skip) k + 1 := by
  have hslots : (layouts (node v ts :: us)).map Slot.skip =
      (1 + sizes ts) :: ((layouts ts).map Slot.skip ++ (layouts us).map Slot.skip) := by
    rw [layouts_cons, layout_node, List.cons_append, List.map_cons, List.map_append]
  unfold depthAt
  rw [hslots, List.range_succ_eq_map, List.countP_cons_of_pos, List.countP_map]
  · congr 1
    refine List.countP_congr fun j hj => ?_
    have hlt := List.mem_range.mp hj
    rw [Function.comp_apply, Nat.succ_eq_add_one, List.getElem?_cons_succ,
      List.getElem?_append_left (by simpa using Nat.lt_trans hlt hk)]
    simp only [Nat.add_right_comm j 1, Nat.add_lt_add_iff_right]
  · simp only [List.getElem?_cons_zero, Option.any_some, decide_eq_true_eq]
    omega

lemma depthAt_outer (t : Rose α) (us : List (Rose α)) (k : ℕ) :
    depthAt ((layouts (t :: us)).map Slot.skip) (t.size + k) =
      depthAt ((layouts us).map Slot.skip) k := by
  have hslots : (layouts (t :: us)).map Slot.skip =
      t.layout.map Slot.skip ++ (layouts us).map Slot.skip := by
    rw [layouts_cons, List.map_append]
  have hnone : (List.range t.size).countP (fun j =>
      ((layouts (t :: us)).map Slot.skip)[j]?.any fun s => t.size + k < j + s) = 0 := by
    rw [List.countP_eq_zero]
    intro j hj
    have hlt := List.mem_range.mp hj
    rw [hslots, List.getElem?_append_left (by simpa using hlt)]
    rcases hs : (t.layout.map Slot.skip)[j]? with _ | s
    · simp
    · have hinside := (wellFormed_layouts [t]).inside (i := j) (s := s) (by simpa using hs)
      simp only [List.length_map, length_layouts, sizes_cons, sizes_nil] at hinside
      simp only [Option.any_some, decide_eq_true_eq]
      omega
  unfold depthAt
  rw [List.range_add, List.countP_append, hnone, List.countP_map, Nat.zero_add]
  refine List.countP_congr fun j _ => ?_
  rw [Function.comp_apply, hslots, List.getElem?_append_right (by simp), List.length_map,
    length_layout, Nat.add_sub_cancel_left]
  simp only [Nat.add_assoc, Nat.add_lt_add_iff_left]

/-- **The depth of a node** is how many slots before its own own it. -/
theorem getElem?_depthsAll (ts : List (Rose α)) (d : ℕ) {k : ℕ} (hk : k < sizes ts) :
    (depthsAll d ts)[k]? = some (d + depthAt ((layouts ts).map Slot.skip) k) := by
  induction ts using forest_induction generalizing d k with
  | nil => cases hk
  | cons v ts us ihts ihus =>
    have hlength : ((node v ts).depths d).length = (node v ts).size := by
      have h := length_depthsAll d [node v ts]
      simpa using h
    rw [sizes_cons] at hk
    rw [depthsAll_cons]
    rcases Nat.lt_or_ge k (node v ts).size with hin | hout
    · rw [List.getElem?_append_left (by rwa [hlength])]
      cases k with
      | zero => rfl
      | succ k =>
        have hk : k < sizes ts := by rw [size_node] at hin; omega
        rw [depths_node, List.getElem?_cons_succ, ihts (d + 1) hk, depthAt_inner v us hk]
        congr 1
        omega
    · obtain ⟨j, rfl⟩ := Nat.exists_eq_add_of_le hout
      rw [List.getElem?_append_right (by rwa [hlength]), hlength, Nat.add_sub_cancel_left,
        ihus d (by omega), depthAt_outer]

lemma depths_eq (t : Rose α) :
    t.depths 0 = (List.range t.size).map (depthAt (t.layout.map Slot.skip)) := by
  have hlength : (t.depths 0).length = t.size := by
    have h := length_depthsAll 0 [t]
    simpa using h
  apply List.ext_getElem?
  intro k
  rcases Nat.lt_or_ge k t.size with hk | hk
  · have hdepth := getElem?_depthsAll [t] 0 (k := k) (by simpa using hk)
    simp only [depthsAll_cons, depthsAll_nil, List.append_nil, layouts_cons, layouts_nil,
      Nat.zero_add] at hdepth
    rw [hdepth, List.getElem?_map, List.getElem?_range hk]
    rfl
  · rw [List.getElem?_eq_none (by rwa [hlength]), List.getElem?_eq_none (by simpa using hk)]

end Rose

end Stylesheet
