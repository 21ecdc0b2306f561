import Mathlib.Data.List.Induction
import Stylesheet.Proofs.Mirror

/-!
Looking nodes up one after the other. A seeker only goes forward and knows nothing but where it
stands: behind the slots of all nodes before the largest one that was sought. A node is refused
exactly if that is too far, and every other one is found as it is found from scratch, although it
may come before nodes that were sought earlier.
-/

namespace Stylesheet

namespace SparseTree

variable {cap : ℕ} {α : Type} {reference : List ℕ} {t u : SparseTree cap α}

/-- The notes of a tree in the order of its slots. -/
def notes (t : SparseTree cap α) : List (Note α) := t.slots.map Slot.value

/-- The slot in which the value of a node is kept. -/
def slot? (t : SparseTree cap α) (node : ℕ) : Option (Slot (Note α)) :=
  t.slots.find? fun s => s.value.node == node

lemma nodes_eq_map : t.nodes = t.notes.map Note.node := by
  unfold nodes notes
  rw [List.map_map]
  rfl

/-! ### Attempts to insert -/

/-- Tries to insert a note. If that is refused, the tree stays as it is. -/
def attempt (reference : List ℕ) (t : SparseTree cap α) (n : Note α) : SparseTree cap α :=
  match t.insert reference n.node n.value with
  | .ok (_, u) => u
  | .error _ => t

/-- The tree after some attempts, of which any may be refused. -/
def grown (reference : List ℕ) (attempts : List (Note α)) : SparseTree cap α :=
  attempts.foldl (attempt reference) empty

/-- The slots are those of the notes, and these are for nodes of the reference. -/
structure Kept (reference : List ℕ) (t : SparseTree cap α) : Prop where
  holds : Holds reference t t.notes
  ordered : Ordered t.notes
  inside : ∀ n ∈ t.notes, n.node < reference.length

lemma Holds.perm {ns : List (Note α)} (h : Holds reference t ns) : t.notes.Perm ns := by
  obtain ⟨xs, hperm, -, rfl⟩ := h
  have hnotes : notes (⟨overlay (extent reference) xs⟩ : SparseTree cap α) = xs := map_value_overlay
  rwa [hnotes]

lemma Holds.kept {ns : List (Note α)} (h : Holds reference t ns)
    (hin : ∀ n ∈ ns, n.node < reference.length) : Kept reference t := by
  refine ⟨h.congr h.perm.symm, ?_, fun n hn => hin n (h.perm.mem_iff.mp hn)⟩
  obtain ⟨xs, -, hs, rfl⟩ := h
  have hnotes : notes (⟨overlay (extent reference) xs⟩ : SparseTree cap α) = xs := map_value_overlay
  rwa [hnotes]

/-- **What an attempt can come to**: it is refused for one of three reasons, or a note is added. -/
lemma Kept.insert_cases (h : Kept reference t) (href : WellFormed reference) (x : Note α) :
    (reference.length ≤ x.node ∧
      t.insert reference x.node x.value = .error (.missingReference x.node)) ∨
    (x.node < reference.length ∧ x.node ∈ t.nodes ∧
      t.insert reference x.node x.value = .error (.occupied x.node)) ∨
    (x.node < reference.length ∧ x.node ∉ t.nodes ∧ cap ≤ t.len ∧
      t.insert reference x.node x.value = .error (.overflow cap)) ∨
    (x.node < reference.length ∧ x.node ∉ t.nodes ∧ t.len < cap ∧ ∃ u,
      t.insert reference x.node x.value = .ok (below t.notes x.node, u) ∧
        Kept reference u ∧ u.notes.Perm (x :: t.notes)) := by
  rcases Nat.lt_or_ge x.node reference.length with hnode | hnode
  · by_cases hfree : x.node ∈ t.nodes
    · refine .inr (.inl ⟨hnode, hfree, ?_⟩)
      rw [insert_eq, if_neg (Nat.not_le_of_lt hnode), if_pos hfree]
    rcases Nat.lt_or_ge t.len cap with hroom | hfull
    · refine .inr (.inr (.inr ⟨hnode, hfree, hroom, ?_⟩))
      have hin : ∀ n ∈ x :: t.notes, n.node < reference.length := by
        intro n hn
        rcases List.mem_cons.mp hn with rfl | hn
        · exact hnode
        · exact h.inside n hn
      have hnew : ∀ n ∈ t.notes, n.node ≠ x.node := by
        intro n hn heq
        rw [nodes_eq_map, ← heq] at hfree
        exact hfree (List.mem_map_of_mem hn)
      have hlength : t.notes.length < cap := by
        unfold notes
        rwa [List.length_map]
      obtain ⟨u, hu, -, hold⟩ := insert_of_holds href h.holds hin hnew hlength
      exact ⟨u, hu, hold.kept hin, hold.perm⟩
    · refine .inr (.inr (.inl ⟨hnode, hfree, hfull, ?_⟩))
      rw [insert_eq, if_neg (Nat.not_le_of_lt hnode), if_neg hfree,
        if_neg (Nat.not_lt_of_le hfull)]
  · refine .inl ⟨hnode, ?_⟩
    rw [insert_eq, if_pos hnode]

lemma attempt_of_ok {p : ℕ × SparseTree cap α} {x : Note α}
    (h : t.insert reference x.node x.value = .ok p) : attempt reference t x = p.2 := by
  rw [attempt, h]

/-- **An attempt** that is refused leaves the tree as it is, for whatever reason; another one keeps
the slots those of notes. -/
lemma Kept.attempt_cases (h : Kept reference t) (href : WellFormed reference) (x : Note α) :
    (attempt reference t x = t ∧ ∃ e, t.insert reference x.node x.value = .error e) ∨
      t.len < cap ∧ ∃ p, t.insert reference x.node x.value = .ok p ∧ Kept reference p.2 ∧
        p.2.notes.Perm (x :: t.notes) := by
  have hrefused {e : TreeError} (he : t.insert reference x.node x.value = .error e) :
      attempt reference t x = t ∧ ∃ e, t.insert reference x.node x.value = .error e :=
    ⟨by rw [attempt, he], e, he⟩
  obtain ⟨-, he⟩ | ⟨-, -, he⟩ | ⟨-, -, -, he⟩ | ⟨-, -, hroom, u, hu⟩ := h.insert_cases href x
  · exact .inl (hrefused he)
  · exact .inl (hrefused he)
  · exact .inl (hrefused he)
  · exact .inr ⟨hroom, _, hu⟩

lemma grown_concat (attempts : List (Note α)) (x : Note α) :
    (grown reference (attempts ++ [x]) : SparseTree cap α) =
      attempt reference (grown reference attempts) x := by
  unfold grown
  rw [List.foldl_append]
  rfl

/-- **Attempts**, whatever they are, come to a tree whose slots are those of its notes. -/
theorem kept_grown (href : WellFormed reference) (attempts : List (Note α)) :
    Kept reference (grown reference attempts : SparseTree cap α) := by
  induction attempts using List.reverseRecOn with
  | nil => exact Holds.kept ⟨[], .refl [], .nil, rfl⟩ (by simp)
  | append_singleton attempts x ih =>
    rw [grown_concat]
    obtain ⟨hsame, -⟩ | ⟨-, p, hp, hkept, -⟩ := ih.attempt_cases href x
    · rw [hsame]
      exact ih
    · rw [attempt_of_ok hp]
      exact hkept

/-! ### Places among the nodes -/

lemma find?_eq_getElem? {β : Type} {key : β → ℕ} {xs : List β}
    (hs : xs.Pairwise fun x y => key x < key y) (i : ℕ) :
    xs.find? (fun x => key x == i) =
      xs[xs.countP fun x => key x < i]?.filter fun x => key x == i := by
  induction xs with
  | nil => rfl
  | cons x xs ih =>
    have hlater : ∀ y ∈ xs, key x < key y := fun y hy => List.rel_of_pairwise_cons hs hy
    by_cases hlt : key x < i
    · have hne : ¬ key x = i := Nat.ne_of_lt hlt
      rw [List.countP_cons_of_pos (by simpa using hlt), List.getElem?_cons_succ, ← ih hs.of_cons]
      exact List.find?_cons_of_neg (by simpa using hne)
    · -- no key behind the first is smaller either
      have hnone : xs.countP (fun y => key y < i) = 0 := by
        rw [List.countP_eq_zero]
        intro y hy
        have := hlater y hy
        simp only [decide_eq_true_eq]
        omega
      rw [List.countP_cons_of_neg (by simpa using hlt), hnone, List.getElem?_cons_zero,
        Option.filter_some]
      by_cases heq : key x = i
      · rw [List.find?_cons_of_pos (by simpa using heq), if_pos (by simpa using heq)]
      · rw [if_neg (by simpa using heq), List.find?_eq_none]
        intro y hy
        rcases List.mem_cons.mp hy with rfl | hy
        · simpa using heq
        · have := hlater y hy
          simp only [beq_iff_eq]
          omega

variable {i : ℕ}

lemma slot?_eq (hs : Ordered t.notes) :
    t.slot? i = t.slots[below t.notes i]?.filter fun s => s.value.node == i := by
  have hcount : t.slots.countP (fun s => s.value.node < i) = below t.notes i := by
    unfold below notes
    rw [List.countP_map]
    rfl
  unfold Ordered notes at hs
  rw [List.pairwise_map] at hs
  unfold slot?
  rw [find?_eq_getElem? hs, hcount]

variable {xs : List (Note α)}

lemma add_length_takeWhile (hs : Ordered xs) {p : ℕ} (hp : p ≤ below xs i) :
    p + (((xs.map Note.node).drop p).takeWhile (· < i)).length = below xs i := by
  induction xs generalizing p with
  | nil => simpa using hp
  | cons n xs ih =>
    by_cases hlt : n.node < i
    · rw [below_cons_of_lt hlt] at hp ⊢
      cases p with
      | zero =>
        have hrest := ih hs.of_cons (Nat.zero_le _)
        simp only [List.map_cons, List.drop_zero, List.takeWhile_cons, hlt, decide_true, if_true,
          List.length_cons] at hrest ⊢
        omega
      | succ p =>
        have hrest := ih hs.of_cons (Nat.le_of_succ_le_succ hp)
        simp only [List.map_cons, List.drop_succ_cons]
        omega
    · rw [below_cons_of_le hs (Nat.le_of_not_lt hlt)] at hp ⊢
      obtain rfl : p = 0 := Nat.le_zero.mp hp
      simp [hlt]

lemma below_lt_below_iff (hs : Ordered xs) {b : ℕ} :
    below xs i < below xs b ↔ ∃ n ∈ xs, i ≤ n.node ∧ n.node < b := by
  constructor
  · intro hlt
    have hlength : below xs i < xs.length := Nat.lt_of_lt_of_le hlt below_le
    have hget := List.getElem?_eq_getElem hlength
    refine ⟨_, List.getElem_mem hlength, ?_, (lt_below_iff hs hget).mp hlt⟩
    exact Nat.le_of_not_lt fun hless => Nat.lt_irrefl _ ((lt_below_iff hs hget).mpr hless)
  · rintro ⟨n, hn, hle, hlt⟩
    obtain ⟨k, hk⟩ := List.getElem?_of_mem hn
    have hnot : ¬ k < below xs i := fun hless =>
      Nat.not_lt_of_le hle ((lt_below_iff hs hk).mp hless)
    exact Nat.lt_of_le_of_lt (Nat.le_of_not_lt hnot) ((lt_below_iff hs hk).mpr hlt)

end SparseTree

namespace Seeker

open SparseTree

variable {cap : ℕ} {α : Type} {t : SparseTree cap α} {k : Seeker cap α} {i : ℕ}

/-! ### One call -/

def parked (t : SparseTree cap α) (node : ℕ) : Seeker cap α :=
  ⟨t, below t.notes node, (t.slot? node).isSome⟩

lemma isAhead_iff (hs : Ordered k.tree.notes) (hposition : k.position ≤ k.tree.notes.length) :
    k.isAhead i ↔ k.position ≤ below k.tree.notes i := by
  unfold isAhead
  rcases hp : k.position with _ | p
  · simp
  · rw [hp] at hposition
    have hget := List.getElem?_eq_getElem (Nat.lt_of_succ_le hposition)
    simp only [nodes_eq_map, List.getElem?_map, hget, Option.map_some, Option.all_some,
      decide_eq_true_eq]
    rw [← lt_below_iff hs hget, Nat.succ_le_iff]

lemma found_eq (hs : Ordered t.notes) :
    (t.nodes[below t.notes i]? == some i) = (t.slot? i).isSome := by
  rw [slot?_eq hs, nodes, List.getElem?_map]
  rcases t.slots[below t.notes i]? with _ | s
  · rfl
  · by_cases heq : s.value.node = i <;> simp [Option.filter, heq]

/-- **A call** goes to the place of the node, unless the seeker is already past it. -/
lemma seek_eq (hs : Ordered k.tree.notes) (hposition : k.position ≤ k.tree.notes.length) :
    k.seek i = if k.position ≤ below k.tree.notes i then
      .ok ((k.tree.slot? i).isSome, parked k.tree i) else .error (.movedBackwards i) := by
  have hahead := isAhead_iff (i := i) hs hposition
  unfold seek
  by_cases hle : k.position ≤ below k.tree.notes i
  · have hplace : k.position + ((k.tree.nodes.drop k.position).takeWhile (· < i)).length =
        below k.tree.notes i := by
      rw [nodes_eq_map]
      exact add_length_takeWhile hs hle
    rw [if_pos (hahead.mpr hle), if_pos hle]
    simp only [hplace, found_eq hs]
    rfl
  · rw [if_neg (mt hahead.mp hle), if_neg hle]
    rfl

lemma get_parked (hs : Ordered t.notes) : (parked t i).get = t.find? i := by
  change _ = (t.slot? i).map fun s => s.value.value
  unfold get parked
  simp only [values, List.getElem?_map, slot?_eq hs]
  rcases t.slots[below t.notes i]? with _ | s
  · rfl
  · by_cases heq : s.value.node = i <;> simp [Option.filter, heq]

lemma skip_parked (hs : Ordered t.notes) : (parked t i).skip = (t.slot? i).map Slot.skip := by
  unfold skip parked
  simp only [skips, List.getElem?_map, slot?_eq hs]
  rcases t.slots[below t.notes i]? with _ | s
  · rfl
  · by_cases heq : s.value.node = i <;> simp [Option.filter, heq]

/-! ### Many calls -/

def call (k : Seeker cap α) (node : ℕ) : Seeker cap α :=
  match k.seek node with
  | .ok (_, k') => k'
  | .error _ => k

def after (k : Seeker cap α) (calls : List ℕ) : Seeker cap α := calls.foldl call k

/-- Among the calls there is one for this node that is not refused. -/
def Accepts (k : Seeker cap α) (calls : List ℕ) (node : ℕ) : Prop :=
  ∃ before behind, calls = before ++ node :: behind ∧ ∃ r, (k.after before).seek node = .ok r

variable {calls : List ℕ}

lemma after_concat (k : Seeker cap α) (calls : List ℕ) (node : ℕ) :
    k.after (calls ++ [node]) = (k.after calls).call node := by
  unfold after
  rw [List.foldl_append]
  rfl

lemma accepts_concat {node j : ℕ} : k.Accepts (calls ++ [node]) j ↔
    k.Accepts calls j ∨ j = node ∧ ∃ r, (k.after calls).seek node = .ok r := by
  unfold Accepts
  constructor
  · rintro ⟨before, behind, hcalls, hr⟩
    rcases List.eq_nil_or_concat behind with rfl | ⟨behind, last, rfl⟩
    · obtain ⟨rfl, hlast⟩ := List.append_inj' hcalls rfl
      obtain rfl : node = j := List.singleton_inj.mp hlast
      exact .inr ⟨rfl, hr⟩
    · rw [List.concat_eq_append, ← List.cons_append, ← List.append_assoc] at hcalls
      obtain ⟨rfl, -⟩ := List.append_inj' hcalls rfl
      exact .inl ⟨before, behind, rfl, hr⟩
  · rintro (⟨before, behind, rfl, hr⟩ | ⟨rfl, hr⟩)
    · exact ⟨before, behind ++ [node], by simp, hr⟩
    · exact ⟨calls, [], rfl, hr⟩

lemma mem_of_accepts {node : ℕ} (h : k.Accepts calls node) : node ∈ calls := by
  obtain ⟨before, behind, rfl, -⟩ := h
  simp

/-- After the calls a seeker of the tree stands behind the nodes before `reach`, the largest node
that was not refused. -/
structure Stands (t : SparseTree cap α) (calls : List ℕ) (reach : ℕ) : Prop where
  tree : ((ofTree t).after calls).tree = t
  position : ((ofTree t).after calls).position = below t.notes reach
  accepted : reach = 0 ∨ (ofTree t).Accepts calls reach
  largest : ∀ j, (ofTree t).Accepts calls j → j ≤ reach

variable {reach : ℕ}

lemma Stands.seek_eq (h : Stands t calls reach) (hs : Ordered t.notes) :
    ((ofTree t).after calls).seek i = if below t.notes reach ≤ below t.notes i then
      .ok ((t.slot? i).isSome, parked t i) else .error (.movedBackwards i) := by
  rw [Seeker.seek_eq, h.position, h.tree]
  · rwa [h.tree]
  · rw [h.position, h.tree]
    exact below_le

/-- A call for a smaller node is not refused only if no node lies between. -/
lemma below_max (hs : Ordered t.notes) (hle : below t.notes reach ≤ below t.notes i) :
    below t.notes i = below t.notes (max reach i) := by
  rcases Nat.le_total reach i with hri | hir
  · rw [Nat.max_eq_right hri]
  · rw [Nat.max_eq_left hir]
    refine Nat.le_antisymm (Nat.le_of_not_lt fun hlt => ?_) hle
    obtain ⟨n, -, hn⟩ := (below_lt_below_iff hs).mp hlt
    omega

/-- **A step**: one more call, refused or not. -/
lemma Stands.call (h : Stands t calls reach) (hs : Ordered t.notes) (i : ℕ) :
    ∃ reach, Stands t (calls ++ [i]) reach := by
  have hseek := h.seek_eq (i := i) hs
  have hcall := after_concat (ofTree t) calls i
  unfold Seeker.call at hcall
  split_ifs at hseek with hle
  · rw [hseek] at hcall
    refine ⟨max reach i, ?_⟩
    refine ⟨by rw [hcall]; rfl, by rw [hcall]; exact below_max hs hle, ?_, ?_⟩
    · rcases Nat.le_total reach i with hri | hir
      · rw [Nat.max_eq_right hri]
        exact .inr (accepts_concat.mpr (.inr ⟨rfl, _, hseek⟩))
      · rw [Nat.max_eq_left hir]
        exact h.accepted.imp id fun hreach => accepts_concat.mpr (.inl hreach)
    · intro j hj
      rcases accepts_concat.mp hj with hj | ⟨rfl, -⟩
      · exact Nat.le_trans (h.largest j hj) (Nat.le_max_left _ _)
      · exact Nat.le_max_right _ _
  · rw [hseek] at hcall
    refine ⟨reach, ?_⟩
    refine ⟨by rw [hcall]; exact h.tree, by rw [hcall]; exact h.position, ?_, ?_⟩
    · exact h.accepted.imp id fun hreach => accepts_concat.mpr (.inl hreach)
    · intro j hj
      rcases accepts_concat.mp hj with hj | ⟨-, r, hr⟩
      · exact h.largest j hj
      · rw [hseek] at hr
        cases hr

/-- **A run**: after any calls, the seeker stands where the largest node of them says. -/
theorem exists_stands (hs : Ordered t.notes) (calls : List ℕ) : ∃ reach, Stands t calls reach := by
  induction calls using List.reverseRecOn with
  | nil =>
    refine ⟨0, rfl, (below_eq_zero fun n _ => Nat.zero_le _).symm, .inl rfl, ?_⟩
    intro j hj
    cases mem_of_accepts hj
  | append_singleton calls i ih =>
    obtain ⟨reach, h⟩ := ih
    exact h.call hs i

/-- A stored node no smaller than this one was passed over by a call that was not refused. -/
def Passed (t : SparseTree cap α) (calls : List ℕ) (node : ℕ) : Prop :=
  ∃ r ∈ t.nodes, ∃ j, (ofTree t).Accepts calls j ∧ node ≤ r ∧ r < j

lemma Stands.passed_iff (h : Stands t calls reach) (hs : Ordered t.notes) :
    Passed t calls i ↔ below t.notes i < below t.notes reach := by
  rw [below_lt_below_iff hs]
  unfold Passed
  rw [nodes_eq_map]
  constructor
  · rintro ⟨r, hr, j, hj, hle, hlt⟩
    obtain ⟨n, hn, rfl⟩ := List.mem_map.mp hr
    exact ⟨n, hn, hle, Nat.lt_of_lt_of_le hlt (h.largest j hj)⟩
  · rintro ⟨n, hn, hle, hlt⟩
    rcases h.accepted with rfl | hreach
    · exact absurd hlt (Nat.not_lt_zero _)
    · exact ⟨n.node, List.mem_map_of_mem hn, reach, hreach, hle, hlt⟩

/-- If no node sought is smaller than one before it, nothing that is sought was passed over. -/
lemma not_passed_of_pairwise (h : (calls ++ [i]).Pairwise (· ≤ ·)) : ¬ Passed t calls i := by
  rintro ⟨r, -, j, hj, hle, hlt⟩
  have hji : j ≤ i := (List.pairwise_append.mp h).2.2 j (mem_of_accepts hj) i (by simp)
  omega

/-- **Seeking agrees with looking up from scratch**, whatever was inserted and whatever was sought
before. A call finds the value of the node and the skip of its slot, and never goes back; it is
refused exactly if a stored node that is no smaller was passed over, and so never if each node
sought is at least the one before. -/
theorem seeking_agrees_with_lookup {reference : List ℕ} (href : WellFormed reference)
    (attempts : List (Note α)) (calls : List ℕ) (i : ℕ) :
    let t : SparseTree cap α := grown reference attempts
    let k := (ofTree t).after calls
    (match k.seek i with
      | .ok (found, k') => found = (t.find? i).isSome ∧ k'.get = t.find? i ∧
          k'.skip = (t.slot? i).map Slot.skip ∧ k.position ≤ k'.position ∧ ¬ Passed t calls i
      | .error e => e = .movedBackwards i ∧ Passed t calls i) ∧
    ((calls ++ [i]).Pairwise (· ≤ ·) → ∃ r, k.seek i = .ok r) := by
  intro t k
  have hs : Ordered t.notes := (kept_grown href attempts).ordered
  obtain ⟨reach, h⟩ := exists_stands hs calls
  have hseek : k.seek i = _ := h.seek_eq hs
  have hpassed := h.passed_iff (i := i) hs
  rw [hseek]
  split_ifs with hle
  · refine ⟨⟨?_, get_parked hs, skip_parked hs, ?_, ?_⟩, fun _ => ⟨_, rfl⟩⟩
    · exact Option.isSome_map.symm
    · exact h.position ▸ hle
    · rw [hpassed]
      exact Nat.not_lt_of_le hle
  · have hpast : Passed t calls i := hpassed.mpr (Nat.lt_of_not_le hle)
    exact ⟨⟨rfl, hpast⟩, fun hsorted => absurd hpast (not_passed_of_pairwise hsorted)⟩

/-- A note is refused because its node has one; of the calls, one goes back to a node before those
passed over, and one goes back and finds nothing in between. -/
theorem seeking_agrees_after_refusals :
    WellFormed [9, 6, 3, 1, 1, 2, 1, 2, 1] ∧ ∃ t : SparseTree (capacity 8) Bool,
      grown [9, 6, 3, 1, 1, 2, 1, 2, 1] [⟨5, true⟩, ⟨3, true⟩, ⟨5, false⟩, ⟨1, true⟩] = t ∧
      t.nodes = [1, 3, 5] ∧ Passed t [5, 2] 3 ∧ ¬ Passed t [5, 2] 4 ∧
      ((ofTree t).after [5, 2]).seek 4 = .ok (false, parked t 4) ∧ (parked t 4).get = t.find? 4 := by
  have href : WellFormed [9, 6, 3, 1, 1, 2, 1, 2, 1] :=
    Rose.wellFormed_layouts [.node () [.node () [.node () [.node () [], .node () []],
      .node () [.node () []]], .node () [.node () []]]]
  have hcall := @seeking_agrees_with_lookup (capacity 8) Bool _ href
    [⟨5, true⟩, ⟨3, true⟩, ⟨5, false⟩, ⟨1, true⟩] [5, 2]
  have ht : (grown [9, 6, 3, 1, 1, 2, 1, 2, 1] [⟨5, true⟩, ⟨3, true⟩, ⟨5, false⟩, ⟨1, true⟩] :
      SparseTree (capacity 8) Bool) = ⟨[⟨3, ⟨1, true⟩⟩, ⟨1, ⟨3, true⟩⟩, ⟨1, ⟨5, true⟩⟩]⟩ := by
    rfl
  simp only [ht] at hcall
  obtain ⟨hthree, -⟩ := hcall 3
  obtain ⟨hfour, -⟩ := hcall 4
  exact ⟨href, _, ht, rfl, hthree.2, hfour.2.2.2.2, rfl, hfour.2.1⟩

end Seeker

end Stylesheet
