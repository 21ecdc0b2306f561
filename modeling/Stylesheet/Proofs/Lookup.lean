import Stylesheet.Proofs.Seeking

/-!
Looking values up after attempts to insert them, in the arrays that are written to in place. Nodes
are searched for by some search that is right in lists that increase. Such lists are all that the
attempts leave behind, also those that are refused; so a node has a value exactly if one of them
gave it that, and no other one can.
-/

namespace Stylesheet

open InPlace

/-- A search that finds the place of a number in a list that increases, if it is there. In other
lists it may answer anything. -/
def Finds (search : List ℕ → ℕ → Option ℕ) : Prop :=
  ∀ xs : List ℕ, xs.Pairwise (· < ·) → ∀ i k, search xs i = some k ↔ xs[k]? = some i

namespace SparseArrays

variable {α : Type}

section search

variable (search : List ℕ → ℕ → Option ℕ)

/-- The value of a node of the reference, by a search among the nodes. -/
def findBy (a : SparseArrays α) (node : ℕ) : Except TreeError (Option α) :=
  match search a.nodes node with
  | none => .ok none
  | some k =>
    match a.values[k]? with
    | none => .error (.outside k)
    | some v => .ok (some v)

/-- Gives a node of the reference a value, unless a search finds the node among those that have
one. -/
def insertBy (cap : ℕ) (reference : List ℕ) (node : ℕ) (v : α) : InPlace (SparseArrays α) ℕ := do
  let a ← get
  if reference.length ≤ node then throw (.missingReference node)
  else if (search a.nodes node).isSome then throw (.occupied node)
  else do
    let extent ← check (skipAt reference node)
    let _ ← check (nextIndex cap a.skips.length)
    place cap reference node (node + extent) v

def after (cap : ℕ) (reference : List ℕ) (attempts : List (Note α)) : SparseArrays α :=
  attempts.foldl (fun a n => (run (insertBy search cap reference n.node n.value) a).2) empty

/-- The attempt at place `k` was not refused. -/
def Succeeds (cap : ℕ) (reference : List ℕ) (attempts : List (Note α)) (k : ℕ) (n : Note α) :
    Prop :=
  attempts[k]? = some n ∧ ∃ slot,
    (run (insertBy search cap reference n.node n.value)
      (after search cap reference (attempts.take k))).1 = .ok slot

end search

end SparseArrays

namespace SparseTree

variable {cap : ℕ} {α : Type} {reference : List ℕ} {t : SparseTree cap α}

/-! ### Attempts -/

lemma Kept.pairwise_nodes (h : Kept reference t) : t.nodes.Pairwise (· < ·) := by
  rw [nodes_eq_map, List.pairwise_map]
  exact h.ordered

lemma len_grown_le (href : WellFormed reference) (attempts : List (Note α)) :
    (grown reference attempts : SparseTree cap α).len ≤ cap := by
  induction attempts using List.reverseRecOn with
  | nil => exact Nat.zero_le cap
  | append_singleton attempts x ih =>
    rw [grown_concat]
    obtain ⟨hsame, -⟩ | ⟨hroom, p, hp, -, hperm⟩ :=
      (@kept_grown cap _ _ href attempts).attempt_cases href x
    · rw [hsame]
      exact ih
    · have hlength : p.2.len = (grown reference attempts : SparseTree cap α).len + 1 := by
        have hnotes := hperm.length_eq
        simpa [notes, len] using hnotes
      rw [attempt_of_ok hp, hlength]
      exact hroom

/-- The attempt at place `k` is for the note `n` and adds it. -/
def Adds (cap : ℕ) (reference : List ℕ) (attempts : List (Note α)) (k : ℕ) (n : Note α) : Prop :=
  attempts[k]? = some n ∧
    ∃ p, (grown reference (attempts.take k) : SparseTree cap α).insert reference n.node n.value =
      .ok p

lemma adds_concat {attempts : List (Note α)} {x n : Note α} {k : ℕ} :
    Adds cap reference (attempts ++ [x]) k n ↔ Adds cap reference attempts k n ∨
      k = attempts.length ∧ n = x ∧
        ∃ p, (grown reference attempts : SparseTree cap α).insert reference n.node n.value =
          .ok p := by
  unfold Adds
  rcases Nat.lt_trichotomy k attempts.length with hlt | rfl | hgt
  · rw [List.getElem?_append_left hlt, List.take_append_of_le_length (Nat.le_of_lt hlt)]
    have hne : ¬ k = attempts.length := Nat.ne_of_lt hlt
    simp only [hne, false_and, or_false]
  · rw [List.getElem?_concat_length, List.take_left, List.getElem?_eq_none (Nat.le_refl _)]
    simp only [reduceCtorEq, false_and, false_or, true_and, Option.some.injEq, eq_comm]
  · rw [List.getElem?_eq_none (by simp; omega), List.getElem?_eq_none (Nat.le_of_lt hgt)]
    have hne : ¬ k = attempts.length := Nat.ne_of_gt hgt
    simp only [reduceCtorEq, hne, false_and, or_false]

/-- **The notes of a tree** are those that the attempts have added. -/
theorem mem_notes_grown (href : WellFormed reference) (attempts : List (Note α)) (n : Note α) :
    n ∈ (grown reference attempts : SparseTree cap α).notes ↔
      ∃ k, Adds cap reference attempts k n := by
  induction attempts using List.reverseRecOn with
  | nil =>
    constructor
    · intro hn
      cases hn
    · rintro ⟨k, hk, -⟩
      cases hk
  | append_singleton attempts x ih =>
    rw [grown_concat]
    simp only [adds_concat, exists_or, ← ih, exists_eq_left]
    obtain ⟨hsame, e, he⟩ | ⟨-, p, hp, -, hperm⟩ :=
      (@kept_grown cap _ _ href attempts).attempt_cases href x
    · rw [hsame]
      refine ⟨.inl, ?_⟩
      rintro (hn | ⟨rfl, p, hp⟩)
      · exact hn
      · cases he.symm.trans hp
    · rw [attempt_of_ok hp, hperm.mem_iff, List.mem_cons, or_comm]
      refine or_congr_right ⟨?_, fun hn => hn.1⟩
      rintro rfl
      exact ⟨rfl, p, hp⟩

/-- **No node is given a value twice.** -/
lemma Adds.unique (href : WellFormed reference) {attempts : List (Note α)} {k l : ℕ}
    {m n : Note α} (hk : Adds cap reference attempts k m) (hl : Adds cap reference attempts l n)
    (hnode : m.node = n.node) : k = l := by
  -- an attempt behind one that succeeded finds the node taken
  have hlater {k l : ℕ} {m n : Note α} (hk : Adds cap reference attempts k m)
      (hl : Adds cap reference attempts l n) (hnode : m.node = n.node) : ¬ k < l := by
    intro hlt
    have hearlier : Adds cap reference (attempts.take l) k m := by
      unfold Adds
      rw [List.getElem?_take_of_lt hlt, List.take_take, Nat.min_eq_left (Nat.le_of_lt hlt)]
      exact hk
    have hmem := (mem_notes_grown href (attempts.take l) m).mpr ⟨k, hearlier⟩
    obtain ⟨-, p, hp⟩ := hl
    rw [insert_eq] at hp
    split_ifs at hp with _ hfree
    rw [nodes_eq_map, ← hnode] at hfree
    exact hfree (List.mem_map_of_mem hmem)
  exact Nat.le_antisymm (Nat.le_of_not_lt (hlater hl hk hnode.symm))
    (Nat.le_of_not_lt (hlater hk hl hnode))

/-! ### Looking up -/

lemma Ordered.eq_of_node_eq {ns : List (Note α)} (hs : Ordered ns) {m n : Note α} (hm : m ∈ ns)
    (hn : n ∈ ns) (hnode : m.node = n.node) : m = n := by
  obtain ⟨a, ha⟩ := List.getElem?_of_mem hm
  obtain ⟨b, hb⟩ := List.getElem?_of_mem hn
  rcases Nat.lt_trichotomy a b with hab | rfl | hba
  · have hlt := node_lt_of_lt hs ha hb hab
    omega
  · exact Option.some.inj (ha.symm.trans hb)
  · have hlt := node_lt_of_lt hs hb ha hba
    omega

lemma find?_eq_some_iff (hs : Ordered t.notes) {i : ℕ} {v : α} :
    t.find? i = some v ↔ ⟨i, v⟩ ∈ t.notes := by
  have hfind : t.find? i = (t.notes.find? fun n => n.node == i).map Note.value := by
    unfold find? notes
    rw [List.find?_map, Option.map_map]
    rfl
  rw [hfind, Option.map_eq_some_iff]
  constructor
  · rintro ⟨n, hn, rfl⟩
    have hnode : n.node = i := by simpa using List.find?_some hn
    subst hnode
    exact List.mem_of_find?_eq_some hn
  · intro hmem
    obtain ⟨n, hn⟩ : ∃ n, t.notes.find? (fun n => n.node == i) = some n := by
      rw [← Option.isSome_iff_exists, List.find?_isSome]
      exact ⟨_, hmem, by simp⟩
    have hnode : n.node = i := by simpa using List.find?_some hn
    refine ⟨n, hn, ?_⟩
    rw [hs.eq_of_node_eq (List.mem_of_find?_eq_some hn) hmem hnode]

end SparseTree

namespace SparseArrays

open SparseTree

variable {cap : ℕ} {α : Type} {reference : List ℕ} {search : List ℕ → ℕ → Option ℕ}
  {t : SparseTree cap α}

lemma isSome_search_iff (hsearch : Finds search) {xs : List ℕ} (hs : xs.Pairwise (· < ·)) (i : ℕ) :
    (search xs i).isSome = true ↔ i ∈ xs := by
  rw [Option.isSome_iff_exists, List.mem_iff_getElem?]
  exact exists_congr fun k => hsearch xs hs i k

/-- **An attempt in place** does what it does to the tree. Refused, it has written nothing. -/
lemma run_insertBy (hsearch : Finds search) (h : Kept reference t) (x : Note α) :
    run (insertBy search cap reference x.node x.value) (ofSlots t.slots) =
      match t.insert reference x.node x.value with
      | .ok p => (.ok p.1, ofSlots p.2.slots)
      | .error e => (.error e, ofSlots t.slots) := by
  have hbounds : InBounds t.slots := by
    obtain ⟨xs, -, -, rfl⟩ := h.holds
    exact inBounds_overlay
  have hknown : ∀ s ∈ t.slots, s.value.node < reference.length := fun s hs =>
    h.inside s.value (List.mem_map_of_mem hs)
  have hsorted : (ofSlots t.slots).nodes.Pairwise (· < ·) := h.pairwise_nodes
  have hsame : run (insertBy search cap reference x.node x.value) (ofSlots t.slots) =
      run (insert cap reference x.node x.value) (ofSlots t.slots) := by
    have htaken : (search (ofSlots t.slots).nodes x.node).isSome =
        (ofSlots t.slots).nodes.contains x.node := by
      rw [Bool.eq_iff_iff, isSome_search_iff hsearch hsorted, List.contains_iff_mem]
    rw [insertBy, insert, run_get_bind, run_get_bind, htaken]
  rw [hsame]
  exact run_insert hbounds hknown x.value

/-- **The arrays after any attempts** are those of the tree. -/
lemma after_eq_ofSlots (hsearch : Finds search) (href : WellFormed reference)
    (attempts : List (Note α)) :
    after search cap reference attempts =
      ofSlots (grown reference attempts : SparseTree cap α).slots := by
  induction attempts using List.reverseRecOn with
  | nil => rfl
  | append_singleton attempts x ih =>
    have hstep : after search cap reference (attempts ++ [x]) =
        (run (insertBy search cap reference x.node x.value)
          (after search cap reference attempts)).2 := by
      unfold after
      rw [List.foldl_append]
      rfl
    rw [hstep, ih, run_insertBy hsearch (kept_grown href attempts), grown_concat, attempt]
    rcases (grown reference attempts).insert reference x.node x.value with e | ⟨slot, u⟩ <;> rfl

lemma succeeds_iff_adds (hsearch : Finds search) (href : WellFormed reference)
    {attempts : List (Note α)} {k : ℕ} {n : Note α} :
    Succeeds search cap reference attempts k n ↔ Adds cap reference attempts k n := by
  unfold Succeeds Adds
  rw [after_eq_ofSlots hsearch href, run_insertBy hsearch (kept_grown href _)]
  refine and_congr_right fun _ => ?_
  rcases (grown reference (attempts.take k)).insert reference n.node n.value with e | p
  · simp
  · simp

lemma findBy_eq (hsearch : Finds search) (h : Kept reference t) (i : ℕ) :
    findBy search (ofSlots t.slots) i = .ok (t.find? i) := by
  have hsorted : (ofSlots t.slots).nodes.Pairwise (· < ·) := h.pairwise_nodes
  unfold findBy
  rcases hk : search (ofSlots t.slots).nodes i with _ | k
  · rcases hv : t.find? i with _ | v
    · rfl
    · have hmem := List.mem_map_of_mem (f := Note.node) ((find?_eq_some_iff h.ordered).mp hv)
      rw [← nodes_eq_map] at hmem
      have hsome := (isSome_search_iff hsearch hsorted i).mpr hmem
      rw [hk] at hsome
      cases hsome
  · have hnode := (hsearch _ hsorted i k).mp hk
    obtain ⟨s, hs, rfl⟩ : ∃ s, t.slots[k]? = some s ∧ s.value.node = i := by
      have hget : (t.slots.map fun s => s.value.node)[k]? = some i := hnode
      rw [List.getElem?_map] at hget
      exact Option.map_eq_some_iff.mp hget
    have hvalue : (ofSlots t.slots).values[k]? = some s.value.value := by
      simp [ofSlots, hs]
    have hfound : t.find? s.value.node = some s.value.value :=
      (find?_eq_some_iff h.ordered).mpr (List.mem_map_of_mem (List.mem_of_getElem? hs))
    simp only [hvalue, hfound]

/-- What holds after any attempts, those among them that were refused included. -/
structure WriteOnce (search : List ℕ → ℕ → Option ℕ) (cap : ℕ) (reference : List ℕ)
    (attempts : List (Note α)) : Prop where
  /-- The arrays are those of the tree that the attempts grow. -/
  arrays : after search cap reference attempts =
    ofSlots (grown reference attempts : SparseTree cap α).slots
  /-- One more attempt is refused for the first reason that there is, and then changes nothing. -/
  next : ∀ x : Note α, run (insertBy search cap reference x.node x.value)
      (after search cap reference attempts) =
    if reference.length ≤ x.node then
      (.error (.missingReference x.node), after search cap reference attempts)
    else if x.node ∈ (after search cap reference attempts).nodes then
      (.error (.occupied x.node), after search cap reference attempts)
    else if (after search cap reference attempts).nodes.length = cap then
      (.error (.overflow cap), after search cap reference attempts)
    else
      (.ok ((after search cap reference attempts).nodes.countP (· < x.node)),
        after search cap reference (attempts ++ [x]))
  /-- The nodes with values are those that an attempt has given one. -/
  taken : ∀ i, i ∈ (after search cap reference attempts).nodes ↔
    ∃ k v, Succeeds search cap reference attempts k ⟨i, v⟩
  /-- A node has been given a value only once. -/
  once : ∀ i v w k l, Succeeds search cap reference attempts k ⟨i, v⟩ →
    Succeeds search cap reference attempts l ⟨i, w⟩ → k = l
  /-- Looking a node up never fails, and comes to the same as in the tree. -/
  total : ∀ i, findBy search (after search cap reference attempts) i =
    .ok ((grown reference attempts : SparseTree cap α).find? i)
  /-- It finds the value that the node was given. -/
  find : ∀ i v, findBy search (after search cap reference attempts) i = .ok (some v) ↔
    ∃ k, Succeeds search cap reference attempts k ⟨i, v⟩

lemma next_attempt (hsearch : Finds search) (href : WellFormed reference)
    (attempts : List (Note α)) (x : Note α) :
    run (insertBy search cap reference x.node x.value) (after search cap reference attempts) =
      if reference.length ≤ x.node then
        (.error (.missingReference x.node), after search cap reference attempts)
      else if x.node ∈ (after search cap reference attempts).nodes then
        (.error (.occupied x.node), after search cap reference attempts)
      else if (after search cap reference attempts).nodes.length = cap then
        (.error (.overflow cap), after search cap reference attempts)
      else
        (.ok ((after search cap reference attempts).nodes.countP (· < x.node)),
          after search cap reference (attempts ++ [x])) := by
  have hkept : Kept reference (grown reference attempts : SparseTree cap α) :=
    kept_grown href attempts
  have hfilled := @len_grown_le cap _ _ href attempts
  have hlength : (ofSlots (grown reference attempts : SparseTree cap α).slots).nodes.length =
      (grown reference attempts : SparseTree cap α).len := by
    simp [ofSlots, len]
  have hcount : (ofSlots (grown reference attempts : SparseTree cap α).slots).nodes.countP
      (· < x.node) = below (grown reference attempts : SparseTree cap α).notes x.node := by
    unfold below notes ofSlots
    simp only [List.countP_map]
    rfl
  rw [after_eq_ofSlots hsearch href, after_eq_ofSlots hsearch href, grown_concat,
    run_insertBy hsearch hkept, hlength, hcount]
  change _ = if _ then _ else if x.node ∈ (grown reference attempts : SparseTree cap α).nodes
    then _ else _
  obtain ⟨hnode, h⟩ | ⟨hnode, htaken, h⟩ | ⟨hnode, hfree, hfull, h⟩ |
      ⟨hnode, hfree, hroom, u, h, -⟩ := hkept.insert_cases href x
  · rw [h, if_pos hnode]
  · rw [h, if_neg (Nat.not_le_of_lt hnode), if_pos htaken]
  · rw [h, if_neg (Nat.not_le_of_lt hnode), if_neg hfree, if_pos (Nat.le_antisymm hfilled hfull)]
  · rw [attempt_of_ok h, h, if_neg (Nat.not_le_of_lt hnode), if_neg hfree,
      if_neg (Nat.ne_of_lt hroom)]

/-- **Values are written once**, and what is refused changes nothing. After any attempts, the nodes
that are found are those for which one attempt succeeded, with the value of that one. -/
theorem attempts_write_once (href : WellFormed reference) (hsearch : Finds search)
    (attempts : List (Note α)) : WriteOnce search cap reference attempts := by
  have hkept : Kept reference (grown reference attempts : SparseTree cap α) :=
    kept_grown href attempts
  have hfind (i : ℕ) (v : α) : (grown reference attempts : SparseTree cap α).find? i = some v ↔
      ∃ k, Succeeds search cap reference attempts k ⟨i, v⟩ := by
    rw [find?_eq_some_iff hkept.ordered, mem_notes_grown href]
    simp only [succeeds_iff_adds hsearch href]
  refine ⟨after_eq_ofSlots hsearch href attempts, next_attempt hsearch href attempts,
    ?_, ?_, ?_, ?_⟩
  · intro i
    have hnodes : i ∈ (grown reference attempts : SparseTree cap α).nodes ↔
        ∃ v, ⟨i, v⟩ ∈ (grown reference attempts : SparseTree cap α).notes := by
      rw [nodes_eq_map, List.mem_map]
      constructor
      · rintro ⟨n, hn, rfl⟩
        exact ⟨n.value, hn⟩
      · rintro ⟨v, hv⟩
        exact ⟨_, hv, rfl⟩
    rw [after_eq_ofSlots hsearch href, exists_comm]
    simp only [← hfind, find?_eq_some_iff hkept.ordered]
    exact hnodes
  · intro i v w k l hk hl
    rw [succeeds_iff_adds hsearch href] at hk hl
    exact hk.unique href hl rfl
  · intro i
    rw [after_eq_ofSlots hsearch href]
    exact findBy_eq hsearch hkept i
  · intro i v
    rw [after_eq_ofSlots hsearch href, findBy_eq hsearch hkept, Except.ok.injEq]
    exact hfind i v

lemma finds_idxOf? : Finds fun xs i => xs.idxOf? i := by
  intro xs hs i k
  rw [List.idxOf?_eq_some_iff, List.getElem?_eq_some_iff]
  constructor
  · rintro ⟨hk, hget, -⟩
    exact ⟨hk, hget⟩
  · rintro ⟨hk, hget⟩
    refine ⟨hk, hget, fun j hj heq => ?_⟩
    have hlt := List.pairwise_iff_getElem.mp hs j k (Nat.lt_trans hj hk) hk hj
    omega

/-- A second value for a node is refused, an ancestor takes a node in, and then there is no room for
the last node of the reference. -/
theorem attempts_write_once_until_full :
    WellFormed [2, 1, 1, 1] ∧ (Finds fun xs i => xs.idxOf? i) ∧ ∃ a : SparseArrays Bool,
      after (fun xs i => xs.idxOf? i) (capacity 2) [2, 1, 1, 1]
        [⟨1, true⟩, ⟨1, false⟩, ⟨3, true⟩, ⟨0, false⟩] = a ∧
      a.nodes = [0, 1, 3] ∧ a.skips = [2, 1, 1] ∧
      run (insertBy (fun xs i => xs.idxOf? i) (capacity 2) [2, 1, 1, 1] 2 true) a =
        (.error (.overflow (capacity 2)), a) ∧
      findBy (fun xs i => xs.idxOf? i) a 1 = .ok (some true) ∧
      ∃ k, Succeeds (fun xs i => xs.idxOf? i) (capacity 2) [2, 1, 1, 1]
        [⟨1, true⟩, ⟨1, false⟩, ⟨3, true⟩, ⟨0, false⟩] k ⟨1, true⟩ := by
  have href : WellFormed [2, 1, 1, 1] :=
    Rose.wellFormed_layouts [.node () [.node () []], .node () [], .node () []]
  have honce := @attempts_write_once (capacity 2) _ _ _ href finds_idxOf?
    [⟨1, true⟩, ⟨1, false⟩, ⟨3, true⟩, ⟨0, false⟩]
  have hnext := honce.next ⟨2, true⟩
  have hfind : findBy (fun xs i => xs.idxOf? i) (after (fun xs i => xs.idxOf? i) (capacity 2)
      [2, 1, 1, 1] [⟨1, true⟩, ⟨1, false⟩, ⟨3, true⟩, ⟨0, false⟩]) 1 = .ok (some true) := by
    rfl
  exact ⟨href, finds_idxOf?, _, rfl, rfl, rfl, hnext, hfind, (honce.find 1 true).mp hfind⟩

end SparseArrays

end Stylesheet
