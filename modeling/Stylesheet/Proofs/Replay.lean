import Mathlib.Data.List.Chain
import Stylesheet.Proofs.Journal

/-!
Playing back a journal. Its entries are calls that make a tree grow by last children, one for each
node in preorder, and these come to the tree that a builder has laid out. While nodes are open the
builder has the slots of that tree too, but for the skips of the open nodes, which are set when they
are finished.
-/

namespace Stylesheet

open Rose

/-! ### The tree that the open nodes belong to -/

namespace Rose

variable {α : Type}

/-- The tree with all nodes of a path closed, the innermost of them over `t` as its last subtree. -/
def plug : Rose α → List (Layer α) → Rose α
  | t, [] => t
  | t, l :: ls => plug (.node l.value (l.children ++ [t])) ls

@[simp] lemma plug_nil (t : Rose α) : plug t [] = t := rfl

@[simp] lemma plug_cons (t : Rose α) (l : Layer α) (ls : List (Layer α)) :
    plug t (l :: ls) = plug (.node l.value (l.children ++ [t])) ls := rfl

lemma size_plug (t : Rose α) (ls : List (Layer α)) :
    (plug t ls).size = (Layer.slots ls).length + t.size := by
  induction ls generalizing t with
  | nil => simp [Layer.slots]
  | cons l ls ih =>
    rw [plug_cons, ih, Layer.length_slots_cons]
    simp only [size_node, sizes_append, sizes_cons, sizes_nil]
    omega

lemma subtreesAll_append (ts us : List (Rose α)) :
    subtreesAll (ts ++ us) = subtreesAll ts ++ subtreesAll us := by
  induction ts with
  | nil => rfl
  | cons t ts ih => simp [ih]

lemma getElem?_subtrees_plug (t : Rose α) (ls : List (Layer α)) (k : ℕ) :
    (plug t ls).subtrees[(Layer.slots ls).length + k]? = t.subtrees[k]? := by
  induction ls generalizing t k with
  | nil => simp [Layer.slots]
  | cons l ls ih =>
    have hplace : (Layer.slots (l :: ls)).length + k =
        (Layer.slots ls).length + (sizes l.children + k + 1) := by
      rw [Layer.length_slots_cons]
      omega
    rw [plug_cons, hplace, ih, subtrees_node, List.getElem?_cons_succ, subtreesAll_append,
      ← length_subtreesAll, List.getElem?_append_right (Nat.le_add_right _ k),
      Nat.add_sub_cancel_left, subtreesAll_singleton]

lemma addChildIn_append (v : α) (k : ℕ) (ts us : List (Rose α)) :
    addChildIn v (sizes ts + k) (ts ++ us) = ts ++ addChildIn v k us := by
  induction ts generalizing k with
  | nil => simp
  | cons t ts ih =>
    rw [List.cons_append, addChildIn_cons, if_neg (by rw [sizes_cons]; omega), List.cons_append]
    have hrest : sizes (t :: ts) + k - t.size = sizes ts + k := by
      rw [sizes_cons]
      omega
    rw [hrest, ih]

lemma addChild_plug (v : α) {t : Rose α} {k : ℕ} (hk : k < t.size) (ls : List (Layer α)) :
    (plug t ls).addChild v ((Layer.slots ls).length + k) = plug (t.addChild v k) ls := by
  induction ls generalizing t k with
  | nil => simp [Layer.slots]
  | cons l ls ih =>
    have hplace : (Layer.slots (l :: ls)).length + k =
        (Layer.slots ls).length + (sizes l.children + k + 1) := by
      rw [Layer.length_slots_cons]
      omega
    have hchild : (node l.value (l.children ++ [t])).addChild v (sizes l.children + k + 1) =
        .node l.value (l.children ++ [t.addChild v k]) := by
      rw [addChild, addChildIn_append, addChildIn_cons, if_pos hk]
    rw [plug_cons, hplace, ih (by simp; omega), hchild, plug_cons]

lemma getElem?_append_cons_of_ne {β : Type} {xs : List β} {i : ℕ} (h : i ≠ xs.length) (y z : β)
    (ys : List β) : (xs ++ y :: ys)[i]? = (xs ++ z :: ys)[i]? := by
  rcases Nat.lt_or_ge i xs.length with hi | hi
  · rw [List.getElem?_append_left hi, List.getElem?_append_left hi]
  · obtain ⟨k, hk⟩ : ∃ k, i - xs.length = k + 1 := ⟨i - xs.length - 1, by omega⟩
    rw [List.getElem?_append_right hi, List.getElem?_append_right hi, hk,
      List.getElem?_cons_succ, List.getElem?_cons_succ]

/-- But for the slots of the open nodes, the layout of the tree is what has been written. -/
lemma getElem?_layout_plug (t : Rose α) {ls : List (Layer α)} {i : ℕ} (hi : i ∉ Layer.opened ls) :
    (plug t ls).layout[i]? = (Layer.slots ls ++ t.layout)[i]? := by
  induction ls generalizing t with
  | nil => rfl
  | cons l ls ih =>
    rw [Layer.opened, List.mem_cons, not_or] at hi
    rw [plug_cons, ih _ hi.2, layout_node, layouts_append, layouts_cons, layouts_nil,
      List.append_nil, Layer.slots, List.append_assoc, List.cons_append]
    exact getElem?_append_cons_of_ne hi.1 _ _ _

lemma map_value_plug (t : Rose α) (ls : List (Layer α)) :
    (plug t ls).layout.map Slot.value = (Layer.slots ls ++ t.layout).map Slot.value := by
  induction ls generalizing t with
  | nil => rfl
  | cons l ls ih =>
    rw [plug_cons, ih]
    simp [Layer.slots]

/-- **The open nodes form a path**: each is the last child of the one around it. -/
lemma isChain_opened_plug {cap : ℕ} {t : Rose α} {ls : List (Layer α)}
    (hcap : (plug t ls).size ≤ cap) :
    ((Layer.slots ls).length :: Layer.opened ls).IsChain fun inner outer => ∃ older,
      Stylesheet.children cap ((plug t ls).layout.map Slot.skip) outer =
        .ok (older ++ [inner]) := by
  induction ls generalizing t with
  | nil => exact .singleton _
  | cons l ls ih =>
    rw [plug_cons] at hcap ⊢
    refine List.isChain_cons_cons.mpr ⟨?_, ih hcap⟩
    have hsub := getElem?_subtrees_plug (.node l.value (l.children ++ [t])) ls 0
    rw [← subtreesAll_singleton, subtrees_node, List.getElem?_cons_zero] at hsub
    have hchildren := children_layouts hsub (by simpa using hcap)
    simp only [layouts_cons, layouts_nil, List.append_nil, Nat.add_zero] at hchildren
    refine ⟨starts ((Layer.slots ls).length + 1) l.children, ?_⟩
    rw [hchildren, children_node, starts_append, Layer.length_slots_cons]
    rfl

end Rose

/-! ### Playing back -/

/-- Calls that are all carried out, each of which adds its node behind all others. -/
inductive Grown (cap : ℕ) {α : Type} : Option (Rose α) → List (Call α) → Option (Rose α) → Prop
  | nil (t : Option (Rose α)) : Grown cap t [] t
  | cons {t : Option (Rose α)} {c : Call α} {u : Rose α} {calls : List (Call α)}
      {w : Option (Rose α)} :
    c.on cap t = .ok (sizes t.toList, u) → Grown cap (some u) calls w → Grown cap t (c :: calls) w

namespace Grown

variable {cap : ℕ} {α : Type} {t u w : Option (Rose α)} {calls more : List (Call α)}

lemma append (h : Grown cap t calls u) (hmore : Grown cap u more w) :
    Grown cap t (calls ++ more) w := by
  induction h with
  | nil => exact hmore
  | cons hcall _ ih => exact .cons hcall (ih hmore)

lemma foldl_eq (h : Grown cap t calls u) : calls.foldl (Call.next cap) t = u := by
  induction h with
  | nil => rfl
  | cons hcall _ ih => rw [List.foldl_cons, Call.next, hcall, ih]

lemma on_take (h : Grown cap t calls u) {k : ℕ} {c : Call α} (hk : calls[k]? = some c) :
    ∃ v, c.on cap ((calls.take k).foldl (Call.next cap) t) = .ok (sizes t.toList + k, v) := by
  induction h generalizing k with
  | nil => simp at hk
  | @cons t d v calls w hcall hgrown ih =>
    cases k with
    | zero =>
      obtain rfl : d = c := by simpa using hk
      exact ⟨v, hcall⟩
    | succ k =>
      rw [List.getElem?_cons_succ] at hk
      obtain ⟨x, hx⟩ := ih hk
      have hsize := (Call.on_eq_ok hcall).2
      refine ⟨x, ?_⟩
      rw [List.take_succ_cons, List.foldl_cons, Call.next, hcall, hx, Option.toList_some,
        sizes_cons, sizes_nil, hsize, Nat.add_zero, Nat.add_right_comm, Nat.add_assoc]

lemma child_plug (v w : α) (cs : List (Rose α)) (ls : List (Layer α))
    (hcap : (plug (.node v cs) ls).size < cap) :
    Grown cap (some (plug (.node v cs) ls)) [.child (Layer.slots ls).length w]
      (some (plug (.node w []) (⟨v, cs⟩ :: ls))) := by
  have hsub := getElem?_subtrees_plug (.node v cs) ls 0
  have hadd := addChild_plug w (size_pos (.node v cs)) ls
  rw [Nat.add_zero] at hsub hadd
  refine .cons ?_ (.nil _)
  rw [Call.on, hsub, subtrees_node, List.getElem?_cons_zero]
  simp only [hcap, hadd, Option.toList_some, sizes_cons, sizes_nil, Nat.add_zero, if_true]
  rw [size_plug]
  rfl

/-- **The entries of a forest** played back put it under the innermost node. -/
lemma entriesAll_plug (v : α) (cs ts : List (Rose α)) (ls : List (Layer α))
    (hcap : (plug (.node v (cs ++ ts)) ls).size ≤ cap) :
    Grown cap (some (plug (.node v cs) ls))
      ((entriesAll (some (Layer.slots ls).length) (Layer.slots (⟨v, cs⟩ :: ls)).length ts).map
        Journal.entryCall)
      (some (plug (.node v (cs ++ ts)) ls)) := by
  induction ts using forest_induction generalizing v cs ls with
  | nil =>
    rw [List.append_nil]
    exact .nil _
  | cons w ts us ihts ihus =>
    have hsize : (plug (.node v (cs ++ .node w ts :: us)) ls).size =
        (plug (.node v cs) ls).size + 1 + sizes ts + sizes us := by
      simp only [size_plug, size_node, sizes_append, sizes_cons]
      omega
    have hnode := child_plug v w cs ls (by omega : _ < cap)
    have hinner := ihts w [] (⟨v, cs⟩ :: ls) (by
      simp only [List.nil_append, plug_cons, size_plug, size_node, sizes_append, sizes_cons,
        sizes_nil] at hcap ⊢
      omega)
    have houter := ihus v (cs ++ [.node w ts]) ls (by simpa using hcap)
    have hplace : (Layer.slots (⟨w, []⟩ :: ⟨v, cs⟩ :: ls)).length =
        (Layer.slots (⟨v, cs⟩ :: ls)).length + 1 := by
      rw [Layer.length_slots_cons, sizes_nil, Nat.add_zero]
    have hbehind : (Layer.slots (⟨v, cs ++ [.node w ts]⟩ :: ls)).length =
        (Layer.slots (⟨v, cs⟩ :: ls)).length + (node w ts).size := by
      simp only [Layer.length_slots_cons, sizes_append, sizes_cons, sizes_nil]
      omega
    rw [hplace, List.nil_append, plug_cons] at hinner
    rw [hbehind, List.append_assoc, List.singleton_append] at houter
    have hall := (hnode.append hinner).append houter
    simpa [Journal.entryCall] using hall

/-- **The entries of a path** played back make the tree with all of its nodes closed. -/
lemma entries_plug (l : Layer α) (ls : List (Layer α))
    (hcap : (Layer.slots (l :: ls)).length ≤ cap) :
    Grown cap none ((Layer.entries (l :: ls)).map Journal.entryCall)
      (some (plug (.node l.value l.children) ls)) := by
  induction ls generalizing l with
  | nil =>
    rw [Layer.length_slots_cons] at hcap
    have hroot : (Call.root l.value).on cap none = .ok (0, .node l.value []) := by
      rw [Call.on, if_pos (by omega)]
    have hbelow : Grown cap _ _ _ := entriesAll_plug l.value [] l.children [] (by
      simp only [List.nil_append, plug_nil, size_node]
      omega)
    exact .cons hroot hbelow
  | cons k ls ih =>
    have hlength := Layer.length_slots_cons l (k :: ls)
    have hlast : Grown cap _ _ _ := child_plug k.value l.value k.children ls (by
      rw [size_plug, size_node, ← Nat.add_assoc, ← Layer.length_slots_cons]
      omega)
    have hbelow : Grown cap _ _ _ := entriesAll_plug l.value [] l.children (k :: ls) (by
      rw [size_plug, List.nil_append, size_node]
      omega)
    have hplace : (Layer.slots (⟨l.value, []⟩ :: k :: ls)).length =
        (Layer.slots (k :: ls)).length + 1 := by
      rw [Layer.length_slots_cons, sizes_nil, Nat.add_zero]
    rw [hplace, List.nil_append] at hbelow
    have hall := ((ih k (by omega)).append hlast).append hbelow
    rw [Layer.entries]
    simpa [Journal.entryCall, Layer.opened] using hall

end Grown

namespace Drafts

variable {cap : ℕ} {α : Type} {b : Builder cap α} {j : Journal α}

/-- **Played back**, a journal makes a tree that has the slots of the builder, but for the skips of
the open nodes. -/
lemma exists_grown (h : Drafts cap b j) (hcap : b.len ≤ cap) :
    ∃ t, Grown cap none j.replay t ∧
      b.slots.map Slot.value = (layouts t.toList).map Slot.value ∧
      (∀ i, i ∉ b.opened → b.slots[i]? = (layouts t.toList)[i]?) ∧
      b.opened.IsChain fun inner outer => ∃ older,
        Stylesheet.children cap ((layouts t.toList).map Slot.skip) outer =
          .ok (older ++ [inner]) := by
  cases h with
  | path ls =>
    cases ls with
    | nil => exact ⟨none, .nil none, rfl, fun _ _ => rfl, .nil⟩
    | cons l ls =>
      refine ⟨_, Grown.entries_plug l ls hcap, ?_, fun i hi => ?_, ?_⟩
      · rw [Option.toList_some, layouts_cons, layouts_nil, List.append_nil, map_value_plug]
        simp [Builder.ofLayers, Layer.slots]
      · rw [Builder.ofLayers, Layer.opened, List.mem_cons, not_or] at hi
        rw [Option.toList_some, layouts_cons, layouts_nil, List.append_nil,
          getElem?_layout_plug _ hi.2, layout_node]
        exact getElem?_append_cons_of_ne hi.1 _ _ _
      · rw [Builder.len_ofLayers, Layer.length_slots_cons, Nat.add_assoc, ← size_node l.value,
          ← size_plug] at hcap
        have hchain := isChain_opened_plug hcap
        rw [Option.toList_some, layouts_cons, layouts_nil, List.append_nil]
        exact hchain
  | tree t =>
    obtain ⟨v, ts⟩ := t
    have hgrown : Grown cap _ _ _ := Grown.entries_plug ⟨v, ts⟩ [] (by
      have hsize : (Builder.ofTree cap (.node v ts)).len = 1 + sizes ts := length_layout _
      rw [Layer.length_slots_cons]
      simp only [Layer.slots, List.length_nil]
      omega)
    exact ⟨_, hgrown, by simp [Builder.ofTree], fun _ _ => by simp [Builder.ofTree], .nil⟩

end Drafts

namespace Builder

open InPlace

variable {cap : ℕ} {α : Type}

/-- The tree that the nodes still there make if they are added one by one, in preorder. -/
def regrown (cap : ℕ) (edits : List (Edit α)) : SkipTree cap α :=
  SkipTree.after cap (Journal.after cap edits).replay

/-- What holds after any edits, those among them that were refused included. -/
structure Regrows (cap : ℕ) (edits : List (Edit α)) : Prop where
  /-- The arrays that are written to in place are those of the builder. -/
  arrays : DraftArrays.after cap edits = .ofBuilder (after cap edits)
  /-- One more edit answers in place as the journal does. Refused, it leaves the arrays alone. -/
  inPlace : ∀ e, run (DraftArrays.edit cap e) (DraftArrays.after cap edits) =
    match (Journal.after cap edits).edit cap e with
    | .ok p => (.ok p.1, DraftArrays.after cap (edits ++ [e]))
    | .error err => (.error err, DraftArrays.after cap edits)
  /-- The open nodes, the outermost first. -/
  opened : (DraftArrays.after cap edits).opened = (Journal.after cap edits).opened.reverse
  increasing : (DraftArrays.after cap edits).opened.Pairwise (· < ·)
  /-- Each open node is the parent of the next, which is its last child so far. -/
  parents : (DraftArrays.after cap edits).opened.IsChain fun outer inner => ∃ older,
    (regrown cap edits).children outer = .ok (older ++ [inner])
  values : (DraftArrays.after cap edits).values = (regrown cap edits).values
  /-- The skip of a closed slot counts its subtree. -/
  closed : ∀ i, i ∉ (DraftArrays.after cap edits).opened →
    (DraftArrays.after cap edits).skips[i]? =
      (subtreesAll (Call.tree cap (Journal.after cap edits).replay).toList)[i]?.map Rose.size
  /-- No call is refused when the nodes are added again, and each adds its node at the end. -/
  preorder : ∀ k c, (Journal.after cap edits).replay[k]? = some c →
    ∃ t, (SkipTree.after cap ((Journal.after cap edits).replay.take k)).call c = .ok (k, t)
  /-- The finished tree is the one that grows so. -/
  finish : (after cap edits).finish =
    if (DraftArrays.after cap edits).opened = [] then .ok (regrown cap edits)
    else .error .stillOpen
  /-- The innermost open node has been open since it was started. -/
  started : ∀ i outer, (after cap edits).opened = i :: outer →
    ∃ before v mid, edits = before ++ .start v :: mid ∧ (after cap before).len = i ∧
      Matches cap before v mid
  /-- Abandoned, it leaves what would be there if it had not been started, nor anything asked since
  but to write into earlier slots. -/
  abandoned : ∀ before v mid, edits = before ++ .start v :: mid → Matches cap before v mid →
    DraftArrays.after cap (edits ++ [.abandon]) =
      DraftArrays.after cap (before ++ mid.filter (Edit.writesBelow (after cap before).len))

lemma run_edit_after (edits : List (Edit α)) (e : Edit α) :
    run (DraftArrays.edit cap e) (DraftArrays.after cap edits) =
      match (Journal.after cap edits).edit cap e with
      | .ok p => (.ok p.1, DraftArrays.after cap (edits ++ [e]))
      | .error err => (.error err, DraftArrays.after cap edits) := by
  rw [DraftArrays.after_eq_ofBuilder, DraftArrays.after_eq_ofBuilder, after_concat, next,
    DraftArrays.run_edit (ordered_after edits)]
  obtain ⟨err, hb, hj⟩ | ⟨i, c, k, hb, hj, -⟩ := (Drafts.after edits).edit_agree e
  · rw [hb, hj]
    rfl
  · rw [hb, hj]
    rfl

/-- **A builder refines ordered trees** under any edits: its nodes are those of the tree that grows
by last children, and a finished builder is that tree. -/
theorem edits_regrow (cap : ℕ) (edits : List (Edit α)) : Regrows cap edits := by
  have hordered : (after cap edits).Ordered := ordered_after edits
  have hdrafts : Drafts cap (after cap edits) (Journal.after cap edits) := Drafts.after edits
  have harrays : DraftArrays.after cap edits = .ofBuilder (after cap edits) :=
    DraftArrays.after_eq_ofBuilder edits
  obtain ⟨t, hgrown, hvalues, hclosed, hchain⟩ := hdrafts.exists_grown hordered.counted
  have htree : Call.tree cap (Journal.after cap edits).replay = t := hgrown.foldl_eq
  have hslots : (regrown cap edits).slots = layouts t.toList := by
    rw [regrown, Call.after_eq_layouts, htree]
  refine ⟨harrays, run_edit_after edits, ?_, ?_, ?_, ?_, ?_, ?_, ?_, ?_, ?_⟩
  · rw [harrays, DraftArrays.ofBuilder, hdrafts.opened_eq]
  · rw [harrays]
    exact List.pairwise_reverse.mpr hordered.opened
  · rw [harrays]
    simp only [SkipTree.children, SkipTree.skips, hslots]
    exact List.isChain_reverse.mpr hchain
  · rw [harrays, SkipTree.values, hslots]
    exact hvalues
  · intro i hi
    rw [harrays, DraftArrays.ofBuilder, List.mem_reverse] at hi
    rw [harrays, DraftArrays.ofBuilder, List.getElem?_map, hclosed i hi, getElem?_layouts, htree,
      Option.map_map]
    rfl
  · intro k c hk
    obtain ⟨u, hu⟩ := hgrown.on_take hk
    refine ⟨⟨u.layout⟩, ?_⟩
    rw [Call.after_eq_layouts, Call.call_layouts, Call.tree, hu]
    simp [Except.map]
  · rw [harrays, Builder.finish, DraftArrays.ofBuilder]
    rcases hb : (after cap edits).opened with _ | ⟨i, outer⟩
    · -- no slot is open, so all slots are those of the tree
      have hall : (after cap edits).slots = (regrown cap edits).slots := by
        rw [hslots]
        refine List.ext_getElem? fun i => hclosed i ?_
        rw [hb]
        exact List.not_mem_nil
      rw [hall]
      rfl
    · simp
      rfl
  · exact fun i outer h => exists_matches h
  · rintro before v mid rfl h
    rw [DraftArrays.after_eq_ofBuilder, DraftArrays.after_eq_ofBuilder, after_abandon h]

end Builder

end Stylesheet
