import Stylesheet.Proofs.Edits
import Stylesheet.Proofs.Calls

/-!
A journal beside a builder. It writes down, for every node that is still there, under which node it
was added and its value; it has no skips. What the two hold after the same edits is a path of open
nodes with what is finished under each, or one tree, and every edit is answered by both alike.
-/

namespace Stylesheet

open Rose

/-- The nodes of a draft in preorder, each with the node it was added under and its value, and the
nodes still open, innermost first. -/
structure Journal (α : Type) where
  entries : List (Option ℕ × α)
  opened : List ℕ

namespace Journal

variable {α : Type}

def empty : Journal α := ⟨[], []⟩

/-- Writes down a node under the innermost open one. Only the first node is under none. -/
def add (cap : ℕ) (j : Journal α) (v : α) : Except TreeError (Journal α) :=
  if j.opened = [] ∧ j.entries ≠ [] then .error .secondRoot
  else if j.entries.length < cap then
    .ok { j with entries := j.entries ++ [(j.opened.head?, v)] }
  else .error (.overflow cap)

def edit (cap : ℕ) (j : Journal α) : Edit α → Except TreeError (Option ℕ × Journal α)
  | .start v => (j.add cap v).map fun k =>
    (some j.entries.length, { k with opened := j.entries.length :: j.opened })
  | .leaf v => (j.add cap v).map fun k => (some j.entries.length, k)
  | .finish =>
    match j.opened with
    | [] => .error .noneOpen
    | i :: outer => .ok (some i, { j with opened := outer })
  | .abandon =>
    match j.opened with
    | [] => .error .noneOpen
    | i :: outer => .ok (none, ⟨j.entries.take i, outer⟩)
  | .write i f =>
    if i < j.entries.length then
      .ok (none, { j with entries := j.entries.modify i (Prod.map id f) })
    else .error (.outside i)

/-- An edit that is refused is not written down. -/
def next (cap : ℕ) (j : Journal α) (e : Edit α) : Journal α :=
  match j.edit cap e with
  | .ok p => p.2
  | .error _ => j

def after (cap : ℕ) (edits : List (Edit α)) : Journal α := edits.foldl (next cap) empty

/-- The call that adds a node again. -/
def entryCall : Option ℕ × α → Call α
  | (none, v) => .root v
  | (some parent, v) => .child parent v

/-- The calls that add the nodes again, in preorder. -/
def replay (j : Journal α) : List (Call α) := j.entries.map entryCall

lemma after_concat (cap : ℕ) (edits : List (Edit α)) (e : Edit α) :
    after cap (edits ++ [e]) = (after cap edits).next cap e := by
  rw [after, List.foldl_append]
  rfl

end Journal

/-! ### The entries of a path of open nodes -/

namespace Rose

variable {α : Type}

mutual

/-- The entries of a tree under a node, if it starts at `i`. -/
def entries (parent : Option ℕ) (i : ℕ) : Rose α → List (Option ℕ × α)
  | .node v ts => (parent, v) :: entriesAll (some i) (i + 1) ts

def entriesAll (parent : Option ℕ) (i : ℕ) : List (Rose α) → List (Option ℕ × α)
  | [] => []
  | t :: ts => t.entries parent i ++ entriesAll parent (i + t.size) ts

end

@[simp] lemma entriesAll_nil (parent : Option ℕ) (i : ℕ) :
    entriesAll parent i ([] : List (Rose α)) = [] := rfl
@[simp] lemma entriesAll_cons (parent : Option ℕ) (i : ℕ) (t : Rose α) (ts : List (Rose α)) :
    entriesAll parent i (t :: ts) = t.entries parent i ++ entriesAll parent (i + t.size) ts := rfl
@[simp] lemma entries_node (parent : Option ℕ) (i : ℕ) (v : α) (ts : List (Rose α)) :
    (node v ts).entries parent i = (parent, v) :: entriesAll (some i) (i + 1) ts := rfl

lemma entriesAll_append (parent : Option ℕ) (i : ℕ) (ts us : List (Rose α)) :
    entriesAll parent i (ts ++ us) =
      entriesAll parent i ts ++ entriesAll parent (i + sizes ts) us := by
  induction ts generalizing i with
  | nil => rfl
  | cons t ts ih => simp [ih, Nat.add_assoc]

lemma map_snd_entriesAll (parent : Option ℕ) (i : ℕ) (ts : List (Rose α)) :
    (entriesAll parent i ts).map Prod.snd = (layouts ts).map Slot.value := by
  induction ts using forest_induction generalizing parent i with
  | nil => rfl
  | cons v ts us ihts ihus => simp [ihts, ihus]

@[simp] lemma length_entriesAll (parent : Option ℕ) (i : ℕ) (ts : List (Rose α)) :
    (entriesAll parent i ts).length = sizes ts := by
  have hvalues := congrArg List.length (map_snd_entriesAll parent i ts)
  simpa using hvalues

end Rose

namespace Layer

variable {α : Type}

/-- The entries of a path of open nodes, innermost first. -/
def entries : List (Layer α) → List (Option ℕ × α)
  | [] => []
  | l :: ls =>
    entries ls ++ ((opened ls).head?, l.value) ::
      entriesAll (some (slots ls).length) ((slots ls).length + 1) l.children

lemma map_snd_entries (ls : List (Layer α)) :
    (entries ls).map Prod.snd = (slots ls).map Slot.value := by
  induction ls with
  | nil => rfl
  | cons l ls ih => simp [entries, slots, ih, map_snd_entriesAll]

lemma length_entries (ls : List (Layer α)) : (entries ls).length = (slots ls).length := by
  have hvalues := congrArg List.length (map_snd_entries ls)
  simpa using hvalues

lemma entries_add (l : Layer α) (ts : List (Rose α)) (ls : List (Layer α)) :
    entries (l.add ts :: ls) = entries (l :: ls) ++
      entriesAll (some (slots ls).length) (slots (l :: ls)).length ts := by
  rw [length_slots_cons]
  simp [entries, add, entriesAll_append]

lemma entries_finished (l k : Layer α) (ls : List (Layer α)) :
    entries (k.add [.node l.value l.children] :: ls) = entries (l :: k :: ls) := by
  rw [entries_add]
  simp [entries, opened]

end Layer

/-! ### Writing a value -/

section modify

variable {α β : Type}

lemma modify_append_of_lt {xs : List β} {i : ℕ} (h : i < xs.length) (ys : List β) (f : β → β) :
    (xs ++ ys).modify i f = xs.modify i f ++ ys := by
  induction xs generalizing i with
  | nil => simp at h
  | cons x xs ih =>
    cases i with
    | zero => rfl
    | succ i => simp [ih (Nat.lt_of_succ_lt_succ h)]

lemma modify_append_of_le {xs : List β} {i : ℕ} (h : xs.length ≤ i) (ys : List β) (f : β → β) :
    (xs ++ ys).modify i f = xs ++ ys.modify (i - xs.length) f := by
  obtain ⟨k, rfl⟩ := Nat.exists_eq_add_of_le h
  rw [Nat.add_sub_cancel_left]
  induction xs with
  | nil => simp
  | cons x xs ih => simp [Nat.add_right_comm, ih]

/-- The slot with its value changed. -/
def Slot.write (f : α → α) (s : Slot α) : Slot α := { s with value := f s.value }

/-- A forest of the same shape has the changed value. -/
lemma exists_forest_write (ts : List (Rose α)) (i : ℕ) (f : α → α) :
    ∃ us, us.length = ts.length ∧ sizes us = sizes ts ∧
      layouts us = (layouts ts).modify i (Slot.write f) ∧
      ∀ parent n, entriesAll parent n us = (entriesAll parent n ts).modify i (Prod.map id f) := by
  induction ts using forest_induction generalizing i with
  | nil => exact ⟨[], rfl, rfl, by simp, by simp⟩
  | cons v ts us ihts ihus =>
    cases i with
    | zero => exact ⟨.node (f v) ts :: us, rfl, rfl, rfl, fun _ _ => rfl⟩
    | succ i =>
      rcases Nat.lt_or_ge i (sizes ts) with hi | hi
      · obtain ⟨ws, -, hsizes, hslots, hentries⟩ := ihts i
        refine ⟨.node v ws :: us, rfl, by simp [hsizes], ?_, fun parent n => ?_⟩
        · simp [hsizes, hslots, modify_append_of_lt, hi]
        · simp [hsizes, hentries, modify_append_of_lt, hi]
      · obtain ⟨ws, hlength, hsizes, hslots, hentries⟩ := ihus (i - sizes ts)
        refine ⟨.node v ts :: ws, by simp [hlength], by simp [hsizes], ?_, fun parent n => ?_⟩
        · simp [hslots, modify_append_of_le, hi]
        · simp [hentries, modify_append_of_le, hi]

lemma exists_layers_write (ls : List (Layer α)) (i : ℕ) (f : α → α) :
    ∃ ks, Layer.opened ks = Layer.opened ls ∧
      Layer.slots ks = (Layer.slots ls).modify i (Slot.write f) ∧
      Layer.entries ks = (Layer.entries ls).modify i (Prod.map id f) := by
  induction ls with
  | nil => exact ⟨[], rfl, by simp [Layer.slots], by simp [Layer.entries]⟩
  | cons l ls ih =>
    rcases Nat.lt_or_ge i (Layer.slots ls).length with hi | hi
    · obtain ⟨ks, hopened, hslots, hentries⟩ := ih
      have hlength : (Layer.slots ks).length = (Layer.slots ls).length := by
        rw [hslots, List.length_modify]
      refine ⟨l :: ks, ?_, ?_, ?_⟩
      · simp [Layer.opened, hopened, hlength]
      · simp [Layer.slots, hslots, modify_append_of_lt, hi]
      · rw [← Layer.length_entries] at hi
        simp [Layer.entries, hentries, hopened, hlength, modify_append_of_lt, hi]
    · obtain ⟨k, hk⟩ := Nat.exists_eq_add_of_le hi
      cases k with
      | zero =>
        refine ⟨⟨f l.value, l.children⟩ :: ls, rfl, ?_, ?_⟩
        · simp [Layer.slots, hk, modify_append_of_le, Slot.write]
        · simp [Layer.entries, hk, modify_append_of_le, Layer.length_entries]
      | succ k =>
        obtain ⟨ws, -, -, hslots, hentries⟩ := exists_forest_write l.children k f
        refine ⟨⟨l.value, ws⟩ :: ls, rfl, ?_, ?_⟩
        · simp [Layer.slots, hk, modify_append_of_le, hslots]
        · simp [Layer.entries, hk, modify_append_of_le, Layer.length_entries, hentries]

end modify

/-! ### Builder and journal in step -/

/-- What a builder and a journal hold after the same edits: a path of open nodes, or a tree. -/
inductive Drafts (cap : ℕ) {α : Type} : Builder cap α → Journal α → Prop
  | path (ls : List (Layer α)) :
    Drafts cap (.ofLayers cap ls) ⟨Layer.entries ls, Layer.opened ls⟩
  | tree (t : Rose α) : Drafts cap (.ofTree cap t) ⟨t.entries none 0, []⟩

namespace Drafts

variable {cap : ℕ} {α : Type} {b : Builder cap α} {j : Journal α}

lemma opened_eq (h : Drafts cap b j) : b.opened = j.opened := by
  cases h <;> rfl

lemma map_value (h : Drafts cap b j) : b.slots.map Slot.value = j.entries.map Prod.snd := by
  cases h with
  | path ls => exact (Layer.map_snd_entries ls).symm
  | tree t =>
    have hentries := map_snd_entriesAll none 0 [t]
    simp only [entriesAll_cons, entriesAll_nil, List.append_nil, layouts_cons,
      layouts_nil] at hentries
    exact hentries.symm

lemma length_entries (h : Drafts cap b j) : j.entries.length = b.len := by
  have hvalues := congrArg List.length h.map_value
  simpa [Builder.len] using hvalues.symm

/-- An edit is refused by both with one error, or both answer the same and go on in step. -/
def Agree (x : Except TreeError (Option ℕ × Builder cap α))
    (y : Except TreeError (Option ℕ × Journal α)) : Prop :=
  (∃ e, x = .error e ∧ y = .error e) ∨
    ∃ i b j, x = .ok (i, b) ∧ y = .ok (i, j) ∧ Drafts cap b j

lemma isEmpty_iff (h : Drafts cap b j) :
    (b.opened.isEmpty && !b.isEmpty) = true ↔ j.opened = [] ∧ j.entries ≠ [] := by
  have hlength := h.length_entries
  have hentries : j.entries = [] ↔ b.slots = [] := by
    rw [← List.length_eq_zero_iff, hlength, Builder.len, List.length_eq_zero_iff]
  rw [h.opened_eq]
  simp [Builder.isEmpty, hentries]

lemma leaf_agree (h : Drafts cap b j) (v : α) :
    (∃ e, b.leaf v = .error e ∧ j.add cap v = .error e) ∨
      b.leaf v = .ok (b.len, ⟨b.slots ++ [⟨1, v⟩], b.opened⟩) ∧
        j.add cap v = .ok ⟨j.entries ++ [(j.opened.head?, v)], j.opened⟩ ∧
        (j.opened = [] → j.entries = []) := by
  rw [Builder.leaf, Journal.add, h.length_entries]
  by_cases hroot : (b.opened.isEmpty && !b.isEmpty) = true
  · rw [if_pos hroot, if_pos (h.isEmpty_iff.mp hroot)]
    exact .inl ⟨_, rfl, rfl⟩
  · rw [if_neg hroot, if_neg (mt h.isEmpty_iff.mpr hroot)]
    unfold nextIndex
    split_ifs with hroom
    · refine .inr ⟨rfl, rfl, fun hnil => ?_⟩
      by_contra hentries
      exact hroot (h.isEmpty_iff.mpr ⟨hnil, hentries⟩)
    · exact .inl ⟨_, rfl, rfl⟩

lemma push_open (h : Drafts cap b j) (hroot : j.opened = [] → j.entries = []) (v : α) :
    Drafts cap ⟨b.slots ++ [⟨1, v⟩], b.len :: b.opened⟩
      ⟨j.entries ++ [(j.opened.head?, v)], j.entries.length :: j.opened⟩ := by
  rw [h.length_entries]
  cases h with
  | path ls => exact .path (⟨v, []⟩ :: ls)
  | tree t =>
    obtain ⟨w, ts⟩ := t
    simp at hroot

lemma push_closed (h : Drafts cap b j) (hroot : j.opened = [] → j.entries = []) (v : α) :
    Drafts cap ⟨b.slots ++ [⟨1, v⟩], b.opened⟩ ⟨j.entries ++ [(j.opened.head?, v)], j.opened⟩ := by
  cases h with
  | path ls =>
    cases ls with
    | nil => exact .tree (.node v [])
    | cons l ls =>
      have hpath : Drafts cap _ _ := .path (l.add [.node v []] :: ls)
      simp only [Builder.ofLayers, Layer.slots_add, Layer.entries_add] at hpath
      exact hpath
  | tree t =>
    obtain ⟨w, ts⟩ := t
    simp at hroot

lemma finish_agree (h : Drafts cap b j) : Agree (b.edit .finish) (j.edit cap .finish) := by
  cases h with
  | tree t => exact .inl ⟨_, rfl, rfl⟩
  | path ls =>
    match ls with
    | [] => exact .inl ⟨_, rfl, rfl⟩
    | [l] =>
      refine .inr ⟨some 0, _, _, ?_, rfl, .tree (.node l.value l.children)⟩
      rw [Builder.edit, Builder.finishNode_root]
      rfl
    | l :: k :: ls =>
      refine .inr ⟨some (Layer.slots (k :: ls)).length, _, _, ?_, ?_,
        .path (k.add [.node l.value l.children] :: ls)⟩
      · rw [Builder.edit, Builder.finishNode_ofLayers]
        rfl
      · rw [Layer.entries_finished]
        rfl

lemma abandon_agree (h : Drafts cap b j) : Agree (b.edit .abandon) (j.edit cap .abandon) := by
  cases h with
  | tree t => exact .inl ⟨_, rfl, rfl⟩
  | path ls =>
    cases ls with
    | nil => exact .inl ⟨_, rfl, rfl⟩
    | cons l ls =>
      refine .inr ⟨none, _, _, ?_, ?_, .path ls⟩
      · rw [Builder.edit, Builder.abandonNode_ofLayers]
        rfl
      · have hkept : (Layer.entries (l :: ls)).take (Layer.slots ls).length = Layer.entries ls := by
          rw [Layer.entries, ← Layer.length_entries, List.take_left']
          rfl
        simp only [Journal.edit, Layer.opened, hkept]

lemma write_agree (h : Drafts cap b j) (i : ℕ) (f : α → α) :
    Agree (b.edit (.write i f)) (j.edit cap (.write i f)) := by
  have hlength := h.length_entries
  rw [Builder.edit, Builder.modifyValue, Journal.edit, hlength]
  split_ifs with hi
  · refine .inr ⟨none, _, _, rfl, rfl, ?_⟩
    cases h with
    | path ls =>
      obtain ⟨ks, hopened, hslots, hentries⟩ := exists_layers_write ls i f
      have hpath : Drafts cap _ _ := .path ks
      rw [Builder.ofLayers, hopened, hslots, hentries] at hpath
      exact hpath
    | tree t =>
      obtain ⟨us, hlength, -, hslots, hentries⟩ := exists_forest_write [t] i f
      obtain ⟨u, rfl⟩ := List.length_eq_one_iff.mp hlength
      simp only [layouts_cons, layouts_nil, entriesAll_cons, entriesAll_nil,
        List.append_nil] at hslots hentries
      have htree : Drafts cap _ _ := .tree u
      rw [Builder.ofTree, hslots, hentries] at htree
      exact htree
  · exact .inl ⟨_, rfl, rfl⟩

/-- **One edit** keeps builder and journal in step. -/
theorem edit_agree (h : Drafts cap b j) (e : Edit α) : Agree (b.edit e) (j.edit cap e) := by
  cases e with
  | start v =>
    rw [Builder.edit, Builder.startNode, Journal.edit]
    obtain ⟨e, hb, hj⟩ | ⟨hb, hj, hroot⟩ := h.leaf_agree v
    · rw [hb, hj]
      exact .inl ⟨e, rfl, rfl⟩
    · rw [hb, hj, h.length_entries]
      refine .inr ⟨some b.len, _, _, rfl, rfl, ?_⟩
      have hpush := h.push_open hroot v
      rw [h.length_entries] at hpush
      exact hpush
  | leaf v =>
    rw [Builder.edit, Journal.edit]
    obtain ⟨e, hb, hj⟩ | ⟨hb, hj, hroot⟩ := h.leaf_agree v
    · rw [hb, hj]
      exact .inl ⟨e, rfl, rfl⟩
    · rw [hb, hj, h.length_entries]
      exact .inr ⟨some b.len, _, _, rfl, rfl, h.push_closed hroot v⟩
  | finish => exact h.finish_agree
  | abandon => exact h.abandon_agree
  | write i f => exact h.write_agree i f

lemma next (h : Drafts cap b j) (e : Edit α) : Drafts cap (b.next e) (j.next cap e) := by
  rw [Builder.next, Journal.next]
  obtain ⟨err, hb, hj⟩ | ⟨i, c, k, hb, hj, hck⟩ := h.edit_agree e
  · rw [hb, hj]
    exact h
  · rw [hb, hj]
    exact hck

/-- **Any edits** do. -/
theorem after (edits : List (Edit α)) :
    Drafts cap (Builder.after cap edits) (Journal.after cap edits) := by
  induction edits using List.reverseRecOn with
  | nil => exact .path []
  | append_singleton edits e ih =>
    rw [Builder.after_concat, Journal.after_concat]
    exact ih.next e

end Drafts

end Stylesheet
