import Mathlib.Data.List.Induction
import Mathlib.Data.List.InsertIdx
import Stylesheet.Proofs.Arrays
import Stylesheet.Proofs.Draft
import Stylesheet.Proofs.Growth

/-!
Calls that make a tree grow. Whatever calls are made, the arrays that are written to in place are
the layout of an ordered tree, and a call does to them what it does to that tree. A call that is
refused changes nothing, since what could fail behind the first write never does: the search ends at
the parent, and no count outgrows a word that can count the whole tree.
-/

namespace Stylesheet

open Rose

/-! ### The search in place -/

namespace TreeArrays

open InPlace SkipTree

variable {α : Type} {cap : ℕ}

/-- **One turn** of the search: it enters the subtree and counts one slot more in it, or passes it
over. -/
lemma run_searchTurn {target skip : ℕ} {done rest : List ℕ} (vs : List α)
    (hne : done.length ≠ target) (hcap : skip + 1 ≤ cap) :
    run (searchTurn cap target done.length) ⟨done ++ skip :: rest, vs⟩ =
      if target < done.length + skip then
        (.ok (done.length + 1), ⟨done ++ (skip + 1) :: rest, vs⟩)
      else (.ok (done.length + skip), ⟨done ++ skip :: rest, vs⟩) := by
  have hskip : skipAt (done ++ skip :: rest) done.length = .ok skip :=
    skipAt_of_getElem? (by simp)
  rw [searchTurn, if_neg hne, run_get_bind, run_check_ok hskip]
  split_ifs with hin
  · rw [run_check_ok (stored_of_le hcap), run_set_bind]
    simp
  · rfl

lemma run_searchTurn_enter {k : ℕ} {w : α} {ts : List (Rose α)} (hk : k < sizes ts)
    (hcap : (node w ts).size < cap) (done : List ℕ) (rest : List (Slot α)) (vs : List α) :
    run (searchTurn cap (done.length + (k + 1)) done.length)
        ⟨done ++ ((node w ts).layout ++ rest).map Slot.skip, vs⟩ =
      (.ok (done ++ [1 + sizes ts + 1]).length,
        ⟨done ++ [1 + sizes ts + 1] ++ (layouts ts ++ rest).map Slot.skip, vs⟩) := by
  have hturn := @run_searchTurn _ cap (done.length + (k + 1)) (1 + sizes ts) done
    ((layouts ts ++ rest).map Slot.skip) vs (by omega) hcap
  rw [if_pos (by omega)] at hturn
  simpa using hturn

lemma run_searchTurn_pass {k : ℕ} {t : Rose α} (hk : t.size ≤ k) (hcap : t.size < cap)
    (done : List ℕ) (rest : List (Slot α)) (vs : List α) :
    run (searchTurn cap (done.length + k) done.length)
        ⟨done ++ (t.layout ++ rest).map Slot.skip, vs⟩ =
      (.ok (done ++ t.layout.map Slot.skip).length,
        ⟨done ++ t.layout.map Slot.skip ++ rest.map Slot.skip, vs⟩) := by
  obtain ⟨w, ts⟩ := t
  rw [size_node] at hk
  have hturn := @run_searchTurn _ cap (done.length + k) (1 + sizes ts) done
    ((layouts ts ++ rest).map Slot.skip) vs (by omega) hcap
  rw [if_neg (by omega)] at hturn
  simpa [Nat.add_comm 1] using hturn

/-- **The search** from the first slot of a forest on. It ends at the node it looks for, after at
most as many turns as there are slots before that, and only what owns the node has grown. -/
theorem run_search_layouts {ts : List (Rose α)} {k : ℕ} {t : Rose α}
    (h : (subtreesAll ts)[k]? = some t) (hcap : sizes ts < cap) {n : ℕ} (hn : k ≤ n)
    (done : List ℕ) (more : List (Slot α)) (vs : List α) :
    ∃ grown : List ℕ,
      run (turns (searchTurn cap (done.length + k)) n done.length)
          ⟨done ++ (layouts ts ++ more).map Slot.skip, vs⟩ =
        (.ok (done.length + k), ⟨done ++ grown, vs⟩) ∧
      grown[k]? = some t.size ∧
      grown.set k (t.size + 1) = (growPath k 0 (layouts ts ++ more)).map Slot.skip := by
  induction ts using forest_induction generalizing k n done more with
  | nil => simp at h
  | cons w ts us ihts ihus =>
    rw [sizes_cons, size_node] at hcap
    rw [subtreesAll_cons] at h
    rw [layouts_cons, List.append_assoc]
    rcases Nat.eq_zero_or_pos k with rfl | hk
    · -- the search is where it wants to be
      obtain rfl : node w ts = t := by simpa using h
      refine ⟨_, run_turns_idle ?_ n, rfl, rfl⟩
      rw [Nat.add_zero, searchTurn, if_pos rfl]
      rfl
    obtain ⟨n, rfl⟩ : ∃ m, n = m + 1 := ⟨n - 1, by omega⟩
    rcases Nat.lt_or_ge k (node w ts).size with hi | hi
    · obtain ⟨k, rfl⟩ : ∃ m, k = m + 1 := ⟨k - 1, by omega⟩
      have hlt : k < sizes ts := by rw [size_node] at hi; omega
      rw [List.getElem?_append_left (by rwa [length_subtrees]), subtrees_node,
        List.getElem?_cons_succ] at h
      have hlength : (done ++ [1 + sizes ts + 1]).length + k = done.length + (k + 1) := by
        rw [List.length_append, List.length_singleton]
        omega
      obtain ⟨grown, hrun, hself, hset⟩ := ihts h (by omega) (Nat.le_of_succ_le_succ hn)
        (done ++ [1 + sizes ts + 1]) (layouts us ++ more)
      rw [hlength] at hrun
      refine ⟨(1 + sizes ts + 1) :: grown, ?_, hself, ?_⟩
      · rw [run_turns_succ (run_searchTurn_enter hlt (by rw [size_node]; omega) done _ vs), hrun,
          List.append_assoc]
        rfl
      · rw [growPath_inner hlt, List.set_cons_succ, hset]
        rfl
    · rw [List.getElem?_append_right (by rwa [length_subtrees]), length_subtrees] at h
      have hwidth : ((node w ts).layout.map Slot.skip).length = (node w ts).size := by
        rw [List.length_map, length_layout]
      have htarget : (done ++ (node w ts).layout.map Slot.skip).length +
          (k - (node w ts).size) = done.length + k := by
        rw [List.length_append, hwidth]
        omega
      obtain ⟨grown, hrun, hself, hset⟩ := ihus h (by omega)
        (show k - (node w ts).size ≤ n by rw [size_node]; omega)
        (done ++ (node w ts).layout.map Slot.skip) more
      rw [htarget] at hrun
      refine ⟨(node w ts).layout.map Slot.skip ++ grown, ?_, ?_, ?_⟩
      · rw [run_turns_succ (run_searchTurn_pass hi (by rw [size_node]; omega) done _ vs), hrun,
          List.append_assoc]
      · rw [List.getElem?_append_right (by omega), hwidth, hself]
      · rw [growPath_outer hi, List.map_append, ← hset, List.set_append_right _ _ (by omega),
          hwidth]

lemma run_search {tree t : Rose α} {parent : ℕ} (h : tree.subtrees[parent]? = some t)
    (hcap : tree.size < cap) {n : ℕ} (hn : parent ≤ n) :
    ∃ grown : List ℕ,
      run (turns (searchTurn cap parent) n 0) (ofSlots tree.layout) =
        (.ok parent, ⟨grown, tree.layout.map Slot.value⟩) ∧
      grown[parent]? = some t.size ∧
      grown.set parent (t.size + 1) = (growPath parent 0 tree.layout).map Slot.skip := by
  have hall : (subtreesAll [tree])[parent]? = some t := by simpa using h
  obtain ⟨grown, hrun, hself, hset⟩ := run_search_layouts hall (by simpa using hcap) hn [] []
    (tree.layout.map Slot.value)
  refine ⟨grown, ?_, hself, ?_⟩
  · rw [ofSlots]
    simpa using hrun
  · simpa using hset

lemma run_insertSlot {index : ℕ} {a : TreeArrays α} (h : index ≤ a.skips.length) (v : α) :
    run (insertSlot index v) a =
      (.ok (), ⟨a.skips.insertIdx index 1, a.values.insertIdx index v⟩) := by
  rw [insertSlot, run_get_bind]
  simp only [if_pos h]
  rfl

/-- Adding a child in place comes to the layout with the child; no word is too small. -/
lemma run_appendChild {tree t : Rose α} {parent : ℕ} (h : tree.subtrees[parent]? = some t)
    (hcap : tree.size < cap) (v : α) :
    run (appendChild cap parent v) (ofSlots tree.layout) =
      (.ok (parent + t.size), ofSlots (tree.addChild v parent).layout) := by
  have hle := add_size_le_size h
  have hpos := size_pos t
  obtain ⟨grown, hsearch, hself, hset⟩ := run_search h hcap (Nat.le_refl parent)
  have hlength : (ofSlots tree.layout).skips.length = tree.size := by simp [ofSlots]
  have hexists : ¬ (ofSlots tree.layout).skips.length ≤ parent := by
    rw [hlength]
    omega
  have hnext : nextIndex cap (ofSlots tree.layout).skips.length = .ok tree.size := by
    rw [hlength, nextIndex_of_lt hcap]
  have hgrown : stored cap (t.size + 1) = .ok (t.size + 1) := stored_of_le (by omega)
  have hchild : stored cap (parent + t.size) = .ok (parent + t.size) := stored_of_le (by omega)
  have hplace : parent + t.size ≤ (grown.set parent (t.size + 1)).length := by
    rw [hset, List.length_map, length_growPath, length_layout]
    exact hle
  rw [appendChild, run_get_bind]
  simp only [if_neg hexists]
  rw [run_check_ok hnext, search, run_bind_ok hsearch, run_get_bind,
    run_check_ok (skipAt_of_getElem? hself), run_check_ok hgrown, run_set_bind,
    run_bind_ok (run_insertSlot hplace v), run_check, hchild, hset,
    ← map_value_growPath parent 0 tree.layout, ofSlots, ← (layout_addChild h v).1,
    List.map_insertIdx, List.map_insertIdx]

end TreeArrays

/-! ### Calls -/

/-- A call that makes a tree grow. -/
inductive Call (α : Type)
  | root (v : α)
  | child (parent : ℕ) (v : α)

namespace Call

variable {α : Type}

/-- What a call does to an ordered tree of at most `cap` nodes, or where there is none yet. It
answers with the preorder index of the new node. -/
def on (cap : ℕ) : Call α → Option (Rose α) → Except TreeError (ℕ × Rose α)
  | .root v, none => if 0 < cap then .ok (0, .node v []) else .error (.overflow cap)
  | .root _, some _ => .error .rootExists
  | .child parent _, none => .error (.missingNode parent)
  | .child parent v, some tree =>
    match tree.subtrees[parent]? with
    | none => .error (.missingNode parent)
    | some t =>
      if tree.size < cap then .ok (parent + t.size, tree.addChild v parent)
      else .error (.overflow cap)

/-- What a call makes of a tree; one that is refused leaves it as it is. -/
def next (cap : ℕ) (t : Option (Rose α)) (c : Call α) : Option (Rose α) :=
  match c.on cap t with
  | .ok p => some p.2
  | .error _ => t

def tree (cap : ℕ) (calls : List (Call α)) : Option (Rose α) := calls.foldl (next cap) none

/-- Whether a call can be made on a tree of `n` nodes: there is one root, and a child has a
parent. -/
def Fits (n : ℕ) : Call α → Prop
  | .root _ => n = 0
  | .child parent _ => parent < n

end Call

namespace SkipTree

variable {cap : ℕ} {α : Type}

def call (t : SkipTree cap α) : Call α → Except TreeError (ℕ × SkipTree cap α)
  | .root v => t.createRoot v
  | .child parent v => t.appendChild parent v

/-- What a call leaves behind; one that is refused leaves the tree as it is. -/
def next (t : SkipTree cap α) (c : Call α) : SkipTree cap α :=
  match t.call c with
  | .ok p => p.2
  | .error _ => t

def after (cap : ℕ) (calls : List (Call α)) : SkipTree cap α := calls.foldl next empty

end SkipTree

namespace TreeArrays

variable {α : Type}

def call (cap : ℕ) : Call α → InPlace (TreeArrays α) ℕ
  | .root v => createRoot cap v
  | .child parent v => appendChild cap parent v

def after (cap : ℕ) (calls : List (Call α)) : TreeArrays α :=
  calls.foldl (fun a c => (InPlace.run (call cap c) a).2) empty

end TreeArrays

namespace Call

open InPlace TreeArrays

variable {cap : ℕ} {α : Type}

/-- **A call on the flat tree** is the call on the tree. -/
theorem call_layouts (c : Call α) (t : Option (Rose α)) :
    SkipTree.call (⟨layouts t.toList⟩ : SkipTree cap α) c =
      (c.on cap t).map fun p => (p.1, ⟨p.2.layout⟩) := by
  cases c with
  | root v =>
    cases t with
    | none =>
      change (nextIndex cap 0 >>= fun root => pure (root, SkipTree.mk [⟨1, v⟩])) = _
      rw [nextIndex, on]
      split_ifs <;> rfl
    | some tree =>
      obtain ⟨w, ts⟩ := tree
      rfl
  | child parent v =>
    cases t with
    | none => rfl
    | some tree =>
      have hslot : (layouts (some tree).toList)[parent]? = tree.subtrees[parent]?.map slot := by
        rw [Option.toList_some, layouts_cons, layouts_nil, List.append_nil, layout_eq_map,
          List.getElem?_map]
      have hlen : SkipTree.len (⟨layouts (some tree).toList⟩ : SkipTree cap α) = tree.size := by
        simp [SkipTree.len]
      rw [SkipTree.call, SkipTree.appendChild, on, hslot]
      rcases h : tree.subtrees[parent]? with _ | t
      · rfl
      · have hchild : (SkipTree.growPath parent 0 (layouts (some tree).toList)).insertIdx
            (parent + t.size) ⟨1, v⟩ = (tree.addChild v parent).layout := by
          simpa using (layout_addChild h v).1
        simp only [Option.map_some, hlen, nextIndex]
        split_ifs with hroom
        · rw [ok_bind, slot_skip, hchild]
          rfl
        · rfl

/-- **A call in place** is the call on the tree; if it is refused, nothing was written. -/
theorem run_call_layouts (c : Call α) (t : Option (Rose α)) :
    run (call cap c) (ofSlots (layouts t.toList)) =
      match c.on cap t with
      | .ok p => (.ok p.1, ofSlots p.2.layout)
      | .error e => (.error e, ofSlots (layouts t.toList)) := by
  cases c with
  | root v =>
    cases t with
    | none =>
      change run (check (nextIndex cap 0) >>= fun root => do
        set (TreeArrays.mk [1] [v])
        return root) (ofSlots []) = _
      rw [on]
      split_ifs with hcap
      · rw [run_check_ok (nextIndex_of_lt hcap)]
        rfl
      · rw [run_check_error (nextIndex_of_le (Nat.le_of_not_lt hcap))]
        rfl
    | some tree =>
      obtain ⟨w, ts⟩ := tree
      rfl
  | child parent v =>
    cases t with
    | none => rfl
    | some tree =>
      have hslots : layouts (some tree).toList = tree.layout := by simp
      rw [hslots, on, call]
      rcases h : tree.subtrees[parent]? with _ | t
      · have hlength : (ofSlots tree.layout).skips.length ≤ parent := by
          have hnone := List.getElem?_eq_none_iff.mp h
          simpa [ofSlots] using hnone
        rw [appendChild, run_get_bind]
        simp only [if_pos hlength]
        rfl
      · simp only
        split_ifs with hcap
        · exact run_appendChild h hcap v
        · have hexists : ¬ (ofSlots tree.layout).skips.length ≤ parent := by
            have hlt := (List.getElem?_eq_some_iff.mp h).1
            simpa [ofSlots] using hlt
          have hnext : nextIndex cap (ofSlots tree.layout).skips.length =
              .error (.overflow cap) := by
            refine nextIndex_of_le ?_
            simpa [ofSlots] using hcap
          rw [appendChild, run_get_bind]
          simp only [if_neg hexists]
          rw [run_check_error hnext]

lemma on_eq_ok {c : Call α} {t : Option (Rose α)} {p : ℕ × Rose α} (h : c.on cap t = .ok p) :
    sizes t.toList < cap ∧ p.2.size = sizes t.toList + 1 := by
  cases c with
  | root v =>
    cases t with
    | none =>
      rw [on] at h
      split_ifs at h with hcap
      cases h
      exact ⟨hcap, rfl⟩
    | some tree => cases h
  | child parent v =>
    cases t with
    | none => cases h
    | some tree =>
      rw [on] at h
      rcases ht : tree.subtrees[parent]? with _ | t
      · rw [ht] at h
        cases h
      · rw [ht] at h
        simp only at h
        split_ifs at h with hcap
        cases h
        have hsize := (layout_addChild ht v).2
        exact ⟨hcap, hsize⟩

/-- The errors a call can answer with: a full tree, a second root and a parent that is not there. -/
lemma on_eq_error {c : Call α} {t : Option (Rose α)} {e : TreeError} (h : c.on cap t = .error e) :
    e = .overflow cap ∧ c.Fits (sizes t.toList) ∧ cap ≤ sizes t.toList ∨
      (e = .rootExists ∨ ∃ parent, e = .missingNode parent) ∧ ¬ c.Fits (sizes t.toList) := by
  cases c with
  | root v =>
    cases t with
    | none =>
      rw [on] at h
      split_ifs at h with hcap
      cases h
      exact .inl ⟨rfl, rfl, Nat.le_of_not_lt hcap⟩
    | some tree =>
      cases h
      refine .inr ⟨.inl rfl, fun hroot => ?_⟩
      have hpos := size_pos tree
      simp only [Fits, Option.toList_some, sizes_cons, sizes_nil] at hroot
      omega
  | child parent v =>
    cases t with
    | none =>
      cases h
      exact .inr ⟨.inr ⟨parent, rfl⟩, Nat.not_lt_zero parent⟩
    | some tree =>
      rw [on] at h
      simp only [Fits, Option.toList_some, sizes_cons, sizes_nil, Nat.add_zero]
      rcases ht : tree.subtrees[parent]? with _ | t
      · rw [ht] at h
        cases h
        have hlength := List.getElem?_eq_none_iff.mp ht
        rw [length_subtrees] at hlength
        exact .inr ⟨.inr ⟨parent, rfl⟩, Nat.not_lt_of_le hlength⟩
      · rw [ht] at h
        simp only at h
        split_ifs at h with hcap
        cases h
        have hlt := (List.getElem?_eq_some_iff.mp ht).1
        rw [length_subtrees] at hlt
        exact .inl ⟨rfl, hlt, Nat.le_of_not_lt hcap⟩

lemma tree_concat (calls : List (Call α)) (c : Call α) :
    tree cap (calls ++ [c]) = next cap (tree cap calls) c := by
  rw [tree, List.foldl_append]
  rfl

lemma sizes_tree_le (calls : List (Call α)) : sizes (tree cap calls).toList ≤ cap := by
  induction calls using List.reverseRecOn with
  | nil => exact Nat.zero_le cap
  | append_singleton calls c ih =>
    rw [tree_concat, next]
    rcases hc : c.on cap (tree cap calls) with e | p
    · exact ih
    · obtain ⟨hlt, hsize⟩ := on_eq_ok hc
      simp only [Option.toList_some, sizes_cons, sizes_nil]
      omega

lemma after_eq_layouts (calls : List (Call α)) :
    SkipTree.after cap calls = ⟨layouts (tree cap calls).toList⟩ := by
  induction calls using List.reverseRecOn with
  | nil => rfl
  | append_singleton calls c ih =>
    have hstep : SkipTree.after cap (calls ++ [c]) = (SkipTree.after cap calls).next c := by
      rw [SkipTree.after, List.foldl_append]
      rfl
    rw [hstep, ih, SkipTree.next, call_layouts, tree_concat, next]
    rcases c.on cap (tree cap calls) with e | p
    · rfl
    · simp [Except.map]

lemma arrays_eq_layouts (calls : List (Call α)) :
    TreeArrays.after cap calls = ofSlots (layouts (tree cap calls).toList) := by
  induction calls using List.reverseRecOn with
  | nil => rfl
  | append_singleton calls c ih =>
    have hstep : TreeArrays.after cap (calls ++ [c]) =
        (run (call cap c) (TreeArrays.after cap calls)).2 := by
      rw [TreeArrays.after, List.foldl_append]
      rfl
    rw [hstep, ih, run_call_layouts, tree_concat, next]
    rcases c.on cap (tree cap calls) with e | p
    · rfl
    · simp

/-- What holds after any calls, those among them that were refused included. -/
structure Refines (cap : ℕ) (calls : List (Call α)) : Prop where
  /-- The arrays are the layout of the tree that the calls make, as is the flat tree. -/
  layout : TreeArrays.after cap calls = ofSlots (layouts (tree cap calls).toList)
  slots : (SkipTree.after cap calls).slots = layouts (tree cap calls).toList
  /-- One more call does in place what it does to the tree. Refused, it leaves the arrays alone. -/
  inPlace : ∀ c, run (call cap c) (TreeArrays.after cap calls) =
    match c.on cap (tree cap calls) with
    | .ok p => (.ok p.1, ofSlots p.2.layout)
    | .error e => (.error e, TreeArrays.after cap calls)
  flat : ∀ c, (SkipTree.after cap calls).call c =
    (c.on cap (tree cap calls)).map fun p => (p.1, ⟨p.2.layout⟩)
  /-- A new child is the last of its parent, and the other nodes stay where they are in the tree. -/
  grows : ∀ parent v child t, (Call.child parent v).on cap (tree cap calls) = .ok (child, t) →
    Grows (layouts (tree cap calls).toList) t.layout parent child v
  /-- A call is refused for want of room exactly if the arrays are full. -/
  full : ∀ c, (run (call cap c) (TreeArrays.after cap calls)).1 = .error (.overflow cap) ↔
    c.Fits (TreeArrays.after cap calls).skips.length ∧
      (TreeArrays.after cap calls).skips.length = cap
  /-- The only other errors are those of a call that cannot be made on this tree. No number is ever
  too large for a word, and no slot is read that is not there. -/
  refused : ∀ c e, (run (call cap c) (TreeArrays.after cap calls)).1 = .error e →
    e = .overflow cap ∨ (e = .rootExists ∨ ∃ parent, e = .missingNode parent) ∧
      ¬ c.Fits (TreeArrays.after cap calls).skips.length
  /-- The search for a parent comes to it and stays there, whatever number of turns it is given. -/
  search : ∀ parent n, parent < (TreeArrays.after cap calls).skips.length →
    (TreeArrays.after cap calls).skips.length < cap → parent ≤ n →
      ∃ a, run (turns (searchTurn cap parent) n 0) (TreeArrays.after cap calls) = (.ok parent, a)
  /-- The arrays depend on the tree alone and not on the calls that made it. -/
  sameTree : ∀ others, tree cap others = tree cap calls →
    TreeArrays.after cap others = TreeArrays.after cap calls

lemma length_skips_after (calls : List (Call α)) :
    (TreeArrays.after cap calls).skips.length = sizes (tree cap calls).toList := by
  rw [arrays_eq_layouts, ofSlots, List.length_map, length_layouts]

lemma run_call_after (calls : List (Call α)) (c : Call α) :
    run (call cap c) (TreeArrays.after cap calls) =
      match c.on cap (tree cap calls) with
      | .ok p => (.ok p.1, ofSlots p.2.layout)
      | .error e => (.error e, TreeArrays.after cap calls) := by
  rw [arrays_eq_layouts, run_call_layouts]

lemma grows_of_on {t : Option (Rose α)} {parent child : ℕ} {v : α} {new : Rose α}
    (h : (Call.child parent v).on cap t = .ok (child, new)) :
    Grows (layouts t.toList) new.layout parent child v := by
  cases t with
  | none => cases h
  | some tree =>
    rw [on] at h
    rcases ht : tree.subtrees[parent]? with _ | u
    · rw [ht] at h
      cases h
    · rw [ht] at h
      simp only at h
      split_ifs at h with hcap
      cases h
      have hgrows := grows_addChild ht v
      simpa using hgrows

/-- A call is refused for want of room exactly if it could be made and the arrays are full. -/
lemma overflow_iff (calls : List (Call α)) (c : Call α) :
    (run (call cap c) (TreeArrays.after cap calls)).1 = .error (.overflow cap) ↔
      c.Fits (TreeArrays.after cap calls).skips.length ∧
        (TreeArrays.after cap calls).skips.length = cap := by
  rw [length_skips_after, run_call_after]
  have hle : sizes (tree cap calls).toList ≤ cap := sizes_tree_le calls
  rcases hc : c.on cap (tree cap calls) with e | p
  · constructor
    · rintro ⟨⟩
      obtain ⟨-, hfits, hcap⟩ | ⟨⟨⟨⟩⟩ | ⟨_, ⟨⟩⟩, -⟩ := on_eq_error hc
      exact ⟨hfits, Nat.le_antisymm hle hcap⟩
    · rintro ⟨hfits, -⟩
      obtain ⟨rfl, -⟩ | ⟨-, hno⟩ := on_eq_error hc
      · rfl
      · exact absurd hfits hno
  · have hlt := (on_eq_ok hc).1
    constructor
    · rintro ⟨⟩
    · rintro ⟨-, hcap⟩
      omega

lemma refused_of_error {calls : List (Call α)} {c : Call α} {e : TreeError}
    (h : (run (call cap c) (TreeArrays.after cap calls)).1 = .error e) :
    e = .overflow cap ∨ (e = .rootExists ∨ ∃ parent, e = .missingNode parent) ∧
      ¬ c.Fits (TreeArrays.after cap calls).skips.length := by
  rw [run_call_after] at h
  rw [length_skips_after]
  rcases hc : c.on cap (tree cap calls) with e | p
  · rw [hc] at h
    cases h
    obtain ⟨rfl, -⟩ | hno := on_eq_error hc
    · exact .inl rfl
    · exact .inr hno
  · rw [hc] at h
    cases h

lemma search_after {calls : List (Call α)} {parent n : ℕ}
    (hparent : parent < (TreeArrays.after cap calls).skips.length)
    (hcap : (TreeArrays.after cap calls).skips.length < cap) (hn : parent ≤ n) :
    ∃ a, run (turns (searchTurn cap parent) n 0) (TreeArrays.after cap calls) =
      (.ok parent, a) := by
  rw [length_skips_after] at hparent hcap
  obtain ⟨t, ht⟩ : ∃ t, (subtreesAll (tree cap calls).toList)[parent]? = some t := by
    rw [← length_subtreesAll] at hparent
    exact ⟨_, List.getElem?_eq_getElem hparent⟩
  obtain ⟨grown, hrun, -⟩ := run_search_layouts ht hcap hn [] [] ((layouts _).map Slot.value)
  simp only [List.append_nil, List.nil_append, List.length_nil, Nat.zero_add] at hrun
  rw [arrays_eq_layouts]
  exact ⟨_, hrun⟩

/-- **Calls refine ordered trees**: the arrays are always the layout of the tree that the calls
make, and nothing fails once a call has begun to write. -/
theorem calls_refine_trees (cap : ℕ) (calls : List (Call α)) : Refines cap calls where
  layout := arrays_eq_layouts calls
  slots := by rw [after_eq_layouts]
  inPlace := run_call_after calls
  flat := by
    intro c
    rw [after_eq_layouts]
    exact call_layouts c _
  grows := fun _ _ _ _ h => grows_of_on h
  full := overflow_iff calls
  refused := fun _ _ h => refused_of_error h
  search := fun _ _ hparent hcap hn => search_after hparent hcap hn
  sameTree := by
    intro others h
    rw [arrays_eq_layouts, arrays_eq_layouts, h]

end Call

end Stylesheet
