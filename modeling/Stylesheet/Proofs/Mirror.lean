import Mathlib.Data.List.Perm.Basic
import Stylesheet.Proofs.Placement

/-!
Many insertions into a sparse tree. After each of them the slots are those of the notes so far in
order, so they are determined by the notes and the order in which these come does not matter; and
such slots mirror the reference tree.
-/

namespace Stylesheet

open InPlace

namespace SparseTree

variable {cap : ℕ} {α : Type} {reference : List ℕ}

def insertAll (reference : List ℕ) :
    List (Note α) → SparseTree cap α → Except TreeError (List ℕ × SparseTree cap α)
  | [], t => .ok ([], t)
  | n :: ns, t => do
    let (place, t) ← t.insert reference n.node n.value
    let (places, t) ← insertAll reference ns t
    return (place :: places, t)

end SparseTree

def SparseArrays.insertAll {α : Type} (cap : ℕ) (reference : List ℕ) :
    List (Note α) → InPlace (SparseArrays α) (List ℕ)
  | [] => pure []
  | n :: ns => do
    let place ← insert cap reference n.node n.value
    let places ← insertAll cap reference ns
    return place :: places

namespace SparseTree

variable {cap : ℕ} {α : Type} {reference : List ℕ}

/-- A tree that holds some notes: its slots are those of the notes in order. -/
def Holds (reference : List ℕ) (t : SparseTree cap α) (ns : List (Note α)) : Prop :=
  ∃ xs, xs.Perm ns ∧ Ordered xs ∧ t = ⟨overlay (extent reference) xs⟩

lemma Holds.congr {t : SparseTree cap α} {ms ns : List (Note α)} (h : Holds reference t ms)
    (hperm : ms.Perm ns) : Holds reference t ns := by
  obtain ⟨xs, hxs, hs, ht⟩ := h
  exact ⟨xs, hxs.trans hperm, hs, ht⟩

lemma Holds.unique {t u : SparseTree cap α} {ns : List (Note α)} (ht : Holds reference t ns)
    (hu : Holds reference u ns) : t = u := by
  obtain ⟨xs, hxs, hsx, rfl⟩ := ht
  obtain ⟨ys, hys, hsy, rfl⟩ := hu
  have hperm : xs.Perm ys := hxs.trans hys.symm
  have heq : xs = ys := hperm.eq_of_pairwise (fun a b _ _ hab hba => by omega) hsx hsy
  rw [heq]

lemma nodes_overlay {stop : ℕ → ℕ} {ns : List (Note α)} :
    nodes (⟨overlay stop ns⟩ : SparseTree cap α) = ns.map Note.node := by
  have hvalues : (overlay stop ns).map Slot.value = ns := map_value_overlay
  conv_rhs => rw [← hvalues, List.map_map]
  rfl

/-- **A step**: a new note is taken in, at the place that the smaller ones leave it, and in place
the arrays go along. -/
theorem insert_of_holds {t : SparseTree cap α} {ns : List (Note α)} {x : Note α}
    (href : WellFormed reference) (hold : Holds reference t ns)
    (hin : ∀ n ∈ x :: ns, n.node < reference.length) (hnew : ∀ n ∈ ns, n.node ≠ x.node)
    (hcap : ns.length < cap) :
    ∃ u : SparseTree cap α, t.insert reference x.node x.value = .ok (below ns x.node, u) ∧
      run (SparseArrays.insert cap reference x.node x.value) (SparseArrays.ofSlots t.slots) =
        (.ok (below ns x.node), SparseArrays.ofSlots u.slots) ∧
      Holds reference u (x :: ns) := by
  obtain ⟨xs, hperm, hs, rfl⟩ := hold
  obtain ⟨lo, hi, rfl, hlo, hhi⟩ := exists_place hs fun n hn => hnew n (hperm.mem_iff.mp hn)
  have hins : (lo ++ x :: hi).Perm (x :: ns) := List.perm_middle.trans (hperm.cons x)
  have hnote := addNote_overlay href hs hlo hhi fun n hn => hin n (hins.mem_iff.mp hn)
  have hbelow : below ns x.node = lo.length := by
    have hnone : below hi x.node = 0 := below_eq_zero fun h hh => Nat.le_of_lt (hhi h hh)
    have hcount : below (lo ++ hi) x.node = below ns x.node := hperm.countP_eq _
    rw [← hcount, below_append, below_eq_length hlo, hnone, Nat.add_zero]
  have hinsert : insert (⟨overlay (extent reference) (lo ++ hi)⟩ : SparseTree cap α) reference
      x.node x.value = .ok (below ns x.node, ⟨overlay (extent reference) (lo ++ x :: hi)⟩) := by
    have hnode : ¬ reference.length ≤ x.node := Nat.not_le_of_lt (hin x List.mem_cons_self)
    have hfree : x.node ∉ nodes (⟨overlay (extent reference) (lo ++ hi)⟩ : SparseTree cap α) := by
      rw [nodes_overlay, List.mem_map]
      rintro ⟨n, hn, heq⟩
      exact hnew n (hperm.mem_iff.mp hn) heq
    have hroom : len (⟨overlay (extent reference) (lo ++ hi)⟩ : SparseTree cap α) < cap := by
      rw [len, length_overlay, hperm.length_eq]
      exact hcap
    rw [insert_eq, if_neg hnode, if_neg hfree, if_pos hroom, hnote, hbelow]
  refine ⟨⟨overlay (extent reference) (lo ++ x :: hi)⟩, hinsert, ?_, lo ++ x :: hi, hins, ?_, rfl⟩
  · have hknown : ∀ s ∈ overlay (extent reference) (lo ++ hi), s.value.node < reference.length := by
      intro s hmem
      have hvalue := List.mem_map_of_mem (f := Slot.value) hmem
      rw [map_value_overlay] at hvalue
      exact hin s.value (List.mem_cons_of_mem x (hperm.mem_iff.mp hvalue))
    rw [SparseArrays.run_insert SparseArrays.inBounds_overlay hknown, hinsert]
  · obtain ⟨hslo, hshi, hcross⟩ := List.pairwise_append.mp hs
    refine List.pairwise_append.mpr ⟨hslo, List.pairwise_cons.mpr ⟨hhi, hshi⟩, ?_⟩
    intro l hl h hh
    rcases List.mem_cons.mp hh with rfl | hh
    · exact hlo l hl
    · exact hcross l hl h hh

/-- In which slots notes are kept at first, behind others that are there: each where the smaller
ones among all before it leave it. -/
def places : List (Note α) → List (Note α) → List ℕ
  | _, [] => []
  | done, n :: ns => below done n.node :: places (n :: done) ns

lemma getElem?_places (done ns : List (Note α)) (k : ℕ) :
    (places done ns)[k]? = ns[k]?.map fun n => below done n.node + below (ns.take k) n.node := by
  induction ns generalizing done k with
  | nil => rfl
  | cons n ns ih =>
    cases k with
    | zero => rfl
    | succ k =>
      rw [places, List.getElem?_cons_succ, ih, List.getElem?_cons_succ, List.take_succ_cons]
      congr 1
      ext m : 1
      rw [below_cons, below_cons]
      omega

/-- **A run**: notes for nodes of their own are all taken in, and the arrays go along. -/
theorem insertAll_of_holds {t : SparseTree cap α} {done ns : List (Note α)}
    (href : WellFormed reference) (hold : Holds reference t done)
    (hin : ∀ n ∈ ns ++ done, n.node < reference.length)
    (hdistinct : ((ns ++ done).map Note.node).Nodup) (hcap : (ns ++ done).length ≤ cap) :
    ∃ u : SparseTree cap α, insertAll reference ns t = .ok (places done ns, u) ∧
      run (SparseArrays.insertAll cap reference ns) (SparseArrays.ofSlots t.slots) =
        (.ok (places done ns), SparseArrays.ofSlots u.slots) ∧
      Holds reference u (ns ++ done) := by
  induction ns generalizing t done with
  | nil => exact ⟨t, rfl, rfl, hold⟩
  | cons n ns ih =>
    have hmiddle : (ns ++ n :: done).Perm (n :: ns ++ done) := List.perm_middle
    have hnew : ∀ m ∈ done, m.node ≠ n.node := by
      intro m hm heq
      rw [List.cons_append, List.map_cons, List.nodup_cons] at hdistinct
      exact hdistinct.1 (heq ▸ List.mem_map_of_mem (List.mem_append_right ns hm))
    have hroom : done.length < cap := by
      rw [List.cons_append, List.length_cons, List.length_append] at hcap
      omega
    obtain ⟨u, hinsert, hrun, hold'⟩ := insert_of_holds href hold
      (fun m hm => hin m (hmiddle.mem_iff.mp (List.mem_append_right ns hm))) hnew hroom
    obtain ⟨w, hinserts, hruns, hold''⟩ := ih hold' (fun m hm => hin m (hmiddle.mem_iff.mp hm))
      ((hmiddle.map Note.node).nodup_iff.mpr hdistinct) (hmiddle.length_eq ▸ hcap)
    refine ⟨w, ?_, ?_, hold''.congr hmiddle⟩
    · rw [insertAll, hinsert]
      change (insertAll reference ns u >>= fun p => pure (below done n.node :: p.1, p.2)) = _
      rw [hinserts]
      rfl
    · rw [SparseArrays.insertAll, run_bind_ok hrun, run_bind_ok hruns]
      rfl

/-! ### What a tree that holds notes looks like -/

lemma lt_below_iff {ns : List (Note α)} (hs : Ordered ns) {k b : ℕ} {n : Note α}
    (h : ns[k]? = some n) : k < below ns b ↔ n.node < b := by
  induction ns generalizing k with
  | nil => simp at h
  | cons m ns ih =>
    cases k with
    | zero =>
      obtain rfl : m = n := by simpa using h
      by_cases hlt : m.node < b
      · rw [below_cons_of_lt hlt]
        omega
      · rw [below_cons_of_le hs (by omega)]
        omega
    | succ k =>
      rw [List.getElem?_cons_succ] at h
      have hlater := List.rel_of_pairwise_cons hs (List.mem_of_getElem? h)
      have hrest := ih hs.of_cons h
      by_cases hlt : m.node < b
      · rw [below_cons_of_lt hlt]
        omega
      · rw [below_cons_of_le hs (by omega)]
        omega

/-- A tree that mirrors its reference. -/
structure Mirrors (reference : List ℕ) (t : SparseTree cap α) (notes : List (Note α)) : Prop where
  increasing : t.nodes.Pairwise (· < ·)
  /-- Nodes and values are those of the notes, side by side. -/
  aligned : (List.zipWith Note.mk t.nodes t.values).Perm notes
  /-- A skip counts the nodes in the subtree of the reference. -/
  counts : ∀ {k i s r : ℕ}, t.nodes[k]? = some i → t.skips[k]? = some s → reference[i]? = some r →
    s = t.nodes.countP fun j => i ≤ j ∧ j < i + r
  /-- One slot owns another exactly if its node owns the other's in the reference. -/
  owns : ∀ {a b i j s r : ℕ}, t.nodes[a]? = some i → t.nodes[b]? = some j → t.skips[a]? = some s →
    reference[i]? = some r → (a ≤ b ∧ b < a + s ↔ i ≤ j ∧ j < i + r)

section Mirrors

variable {stop : ℕ → ℕ} {ns : List (Note α)}

lemma getElem?_overlay (k : ℕ) : (overlay stop ns)[k]? =
    ns[k]?.map fun n => ⟨1 + below (ns.drop (k + 1)) (stop n.node), n⟩ := by
  induction ns generalizing k with
  | nil => rfl
  | cons n ns ih =>
    cases k with
    | zero => rfl
    | succ k => rw [overlay_cons, List.getElem?_cons_succ, ih]; rfl

lemma exists_note {k i s : ℕ} (hi : (nodes (⟨overlay stop ns⟩ : SparseTree cap α))[k]? = some i)
    (hs : (skips (⟨overlay stop ns⟩ : SparseTree cap α))[k]? = some s) :
    ∃ n, ns[k]? = some n ∧ n.node = i ∧ s = 1 + below (ns.drop (k + 1)) (stop i) := by
  rw [nodes_overlay, List.getElem?_map] at hi
  obtain ⟨n, hn, rfl⟩ := Option.map_eq_some_iff.mp hi
  rw [skips, List.getElem?_map, getElem?_overlay, hn] at hs
  exact ⟨n, hn, rfl, (Option.some.inj hs).symm⟩

lemma node_lt_of_lt (hs : Ordered ns) {a b : ℕ} {m n : Note α} (hm : ns[a]? = some m)
    (hn : ns[b]? = some n) (hab : a < b) : m.node < n.node := by
  obtain ⟨ha, rfl⟩ := List.getElem?_eq_some_iff.mp hm
  obtain ⟨hb, rfl⟩ := List.getElem?_eq_some_iff.mp hn
  exact List.pairwise_iff_getElem.mp hs a b ha hb hab

/-- The skip of a slot counts the nodes from its own up to the end of the subtree. -/
lemma countP_nodes (hs : Ordered ns) {k r : ℕ} {n : Note α} (hn : ns[k]? = some n) (hr : 0 < r) :
    (ns.map Note.node).countP (fun j => n.node ≤ j ∧ j < n.node + r) =
      1 + below (ns.drop (k + 1)) (n.node + r) := by
  obtain ⟨hk, hget⟩ := List.getElem?_eq_some_iff.mp hn
  have hsplit : ns = ns.take k ++ n :: ns.drop (k + 1) := by
    rw [← hget, ← List.drop_eq_getElem_cons hk, List.take_append_drop]
  obtain ⟨-, hlater, hearlier⟩ := List.pairwise_append.mp (hsplit ▸ hs)
  have hbefore : (ns.take k).countP (fun m => n.node ≤ m.node ∧ m.node < n.node + r) = 0 := by
    rw [List.countP_eq_zero]
    intro m hm
    have hlt := hearlier m hm n List.mem_cons_self
    simp only [decide_eq_true_eq]
    omega
  have hbehind : (ns.drop (k + 1)).countP (fun m => n.node ≤ m.node ∧ m.node < n.node + r) =
      below (ns.drop (k + 1)) (n.node + r) := by
    refine List.countP_congr fun m hm => ?_
    have hlt := List.rel_of_pairwise_cons hlater hm
    simp only [decide_eq_true_eq]
    omega
  rw [List.countP_map]
  conv_lhs => rw [hsplit]
  rw [List.countP_append, List.countP_cons]
  simp only [Function.comp_def, hbefore, hbehind]
  simp [hr, Nat.add_comm]

/-- **A tree that holds notes mirrors its reference.** -/
theorem Holds.mirrors {t : SparseTree cap α} {notes : List (Note α)} (href : WellFormed reference)
    (hold : Holds reference t notes) : Mirrors reference t notes := by
  obtain ⟨xs, hperm, hs, rfl⟩ := hold
  refine ⟨?_, ?_, ?_, ?_⟩
  · rw [nodes_overlay, List.pairwise_map]
    exact hs
  · have hvalues : values (⟨overlay (extent reference) xs⟩ : SparseTree cap α) =
        xs.map Note.value := by
      have hxs : (overlay (extent reference) xs).map Slot.value = xs := map_value_overlay
      conv_rhs => rw [← hxs, List.map_map]
      rfl
    rw [nodes_overlay, hvalues, List.zipWith_map, List.zipWith_self, List.map_id']
    exact hperm
  · intro k i s r hi hskip hr
    obtain ⟨n, hn, rfl, rfl⟩ := exists_note hi hskip
    rw [extent_eq hr, nodes_overlay, countP_nodes hs hn (href.pos hr)]
  · intro a b i j s r hi hj hskip hr
    obtain ⟨m, hm, rfl, rfl⟩ := exists_note hi hskip
    rw [nodes_overlay, List.getElem?_map] at hj
    obtain ⟨n, hn, rfl⟩ := Option.map_eq_some_iff.mp hj
    have hpos := href.pos hr
    rw [extent_eq hr]
    rcases Nat.lt_trichotomy a b with hab | rfl | hba
    · have hlater := node_lt_of_lt hs hm hn hab
      have hrest : (xs.drop (a + 1))[b - (a + 1)]? = some n := by
        rw [List.getElem?_drop, Nat.add_sub_cancel' hab]
        exact hn
      have hcount := @lt_below_iff _ _ hs.drop _ (m.node + r) _ hrest
      omega
    · obtain rfl : m = n := Option.some.inj (hm.symm.trans hn)
      omega
    · have hearlier := node_lt_of_lt hs hn hm hba
      omega

end Mirrors

/-- **Insertions mirror the reference**, in whatever order they come: all of them succeed, with the
slots where the smaller nodes leave them, and they come to one tree, that of the arrays too. -/
theorem insertions_mirror_reference {notes : List (Note α)} (href : WellFormed reference)
    (hin : ∀ n ∈ notes, n.node < reference.length) (hdistinct : (notes.map Note.node).Nodup)
    (hcap : notes.length ≤ cap) :
    ∃ t : SparseTree cap α, Mirrors reference t notes ∧
      ∀ order : List (Note α), order.Perm notes → ∃ slots : List ℕ,
        insertAll reference order empty = .ok (slots, t) ∧
        run (SparseArrays.insertAll cap reference order) SparseArrays.empty =
          (.ok slots, SparseArrays.ofSlots t.slots) ∧
        ∀ k, slots[k]? = order[k]?.map fun n => below (order.take k) n.node := by
  have hempty : Holds reference (empty : SparseTree cap α) [] := ⟨[], .refl [], .nil, rfl⟩
  have hall (order : List (Note α)) (hperm : order.Perm notes) :=
    @insertAll_of_holds cap α reference empty [] order href hempty
      (fun n hn => hin n (hperm.mem_iff.mp (by simpa using hn)))
      (by simpa using (hperm.map Note.node).nodup_iff.mpr hdistinct)
      (by simpa [hperm.length_eq] using hcap)
  obtain ⟨t, -, -, hold⟩ := hall notes (.refl notes)
  rw [List.append_nil] at hold
  refine ⟨t, hold.mirrors href, fun order hperm => ?_⟩
  obtain ⟨u, hinserts, hruns, hold'⟩ := hall order hperm
  rw [List.append_nil] at hold'
  obtain rfl : u = t := (hold'.congr hperm).unique hold
  refine ⟨places [] order, hinserts, hruns, fun k => ?_⟩
  simp only [getElem?_places, below_nil, Nat.zero_add]

/-- Two nodes are given values before their ancestors are. -/
theorem insertions_mirror_ancestors_last :
    WellFormed [9, 6, 3, 1, 1, 2, 1, 2, 1] ∧ ∃ t : SparseTree (capacity 8) Bool,
      t.skips = [5, 3, 1, 1, 1] ∧ t.nodes = [0, 1, 3, 5, 7] ∧
      Mirrors [9, 6, 3, 1, 1, 2, 1, 2, 1] t
        [⟨3, true⟩, ⟨5, false⟩, ⟨7, true⟩, ⟨1, true⟩, ⟨0, false⟩] := by
  have href : WellFormed [9, 6, 3, 1, 1, 2, 1, 2, 1] :=
    Rose.wellFormed_layouts [.node () [.node () [.node () [.node () [], .node () []],
      .node () [.node () []]], .node () [.node () []]]]
  refine ⟨href, ?_⟩
  obtain ⟨t, hmirrors, horder⟩ := @insertions_mirror_reference (capacity 8) Bool _
    [⟨3, true⟩, ⟨5, false⟩, ⟨7, true⟩, ⟨1, true⟩, ⟨0, false⟩] href (by decide) (by decide)
    (by decide)
  obtain ⟨slots, hinserts, -⟩ := horder _ (.refl _)
  cases hinserts
  exact ⟨_, rfl, rfl, hmirrors⟩

end SparseTree

end Stylesheet
