import Mathlib.Data.List.Basic
import Mathlib.Data.List.Induction
import Stylesheet.Proofs.Arrays
import Stylesheet.Tree.Builder

/-!
Edits of a draft. A builder keeps the skips, the values and the open nodes in arrays of their own
and writes to them in place; an edit that is refused has written nothing. An open node is matched by
the edit that started it, and to abandon the node is to go back to that edit: of all that was asked
since then, only what was written into earlier slots is left.
-/

namespace Stylesheet

/-- What is asked of a builder. -/
inductive Edit (α : Type)
  | start (v : α)
  | leaf (v : α)
  | finish
  | abandon
  | write (index : ℕ) (f : α → α)

/-- Whether an edit writes into one of the first `i` slots. -/
def Edit.writesBelow {α : Type} (i : ℕ) : Edit α → Bool
  | .write index _ => index < i
  | _ => false

namespace Builder

variable {cap : ℕ} {α : Type}

/-- What an edit answers, which is a node or nothing, and what it leaves behind. -/
def edit (b : Builder cap α) : Edit α → Except TreeError (Option ℕ × Builder cap α)
  | .start v => (b.startNode v).map fun p => (some p.1, p.2)
  | .leaf v => (b.leaf v).map fun p => (some p.1, p.2)
  | .finish => b.finishNode.map fun p => (some p.1, p.2)
  | .abandon => b.abandonNode.map fun b => (none, b)
  | .write index f => (b.modifyValue index f).map fun b => (none, b)

/-- The builder behind an edit; one that is refused leaves it as it is. -/
def next (b : Builder cap α) (e : Edit α) : Builder cap α :=
  match b.edit e with
  | .ok p => p.2
  | .error _ => b

def after (cap : ℕ) (edits : List (Edit α)) : Builder cap α := edits.foldl next empty

lemma after_append (edits more : List (Edit α)) :
    after cap (edits ++ more) = more.foldl next (after cap edits) := by
  rw [after, List.foldl_append]
  rfl

lemma after_concat (edits : List (Edit α)) (e : Edit α) :
    after cap (edits ++ [e]) = (after cap edits).next e := after_append edits [e]

/-! ### What one edit can do -/

section next

variable (b : Builder cap α)

lemma leaf_cases (v : α) :
    (∃ e, b.leaf v = .error e) ∨
      b.len < cap ∧ b.leaf v = .ok (b.len, ⟨b.slots ++ [⟨1, v⟩], b.opened⟩) := by
  unfold leaf
  split_ifs
  · exact .inl ⟨_, rfl⟩
  · unfold nextIndex
    split_ifs with hroom
    · exact .inr ⟨hroom, rfl⟩
    · exact .inl ⟨_, rfl⟩

lemma next_leaf (v : α) :
    b.next (.leaf v) = b ∨
      b.len < cap ∧ b.next (.leaf v) = ⟨b.slots ++ [⟨1, v⟩], b.opened⟩ := by
  rw [next, edit]
  obtain ⟨e, h⟩ | ⟨hroom, h⟩ := leaf_cases b v
  · rw [h]
    exact .inl rfl
  · rw [h]
    exact .inr ⟨hroom, rfl⟩

lemma next_start (v : α) :
    b.next (.start v) = b ∨
      b.len < cap ∧ b.next (.start v) = ⟨b.slots ++ [⟨1, v⟩], b.len :: b.opened⟩ := by
  rw [next, edit, startNode]
  obtain ⟨e, h⟩ | ⟨hroom, h⟩ := leaf_cases b v
  · rw [h]
    exact .inl rfl
  · rw [h]
    exact .inr ⟨hroom, rfl⟩

lemma next_finish_nil (h : b.opened = []) : b.next .finish = b := by
  simp only [next, edit, finishNode, h]
  rfl

lemma next_finish_cons {i : ℕ} {opened : List ℕ} (h : b.opened = i :: opened) :
    b.next .finish = ⟨b.slots.modify i fun s => { s with skip := b.len - i }, opened⟩ := by
  simp only [next, edit, finishNode, h]
  rfl

lemma next_abandon_nil (h : b.opened = []) : b.next .abandon = b := by
  simp only [next, edit, abandonNode, h]
  rfl

lemma next_abandon_cons {i : ℕ} {opened : List ℕ} (h : b.opened = i :: opened) :
    b.next .abandon = ⟨b.slots.take i, opened⟩ := by
  simp only [next, edit, abandonNode, h]
  rfl

lemma next_write (i : ℕ) (f : α → α) :
    b.next (.write i f) =
      ⟨b.slots.modify i fun s => { s with value := f s.value }, b.opened⟩ := by
  rw [next, edit, modifyValue]
  split_ifs with h
  · rfl
  · rw [List.modify_eq_self (Nat.le_of_not_lt h)]
    rfl

/-- **The open nodes after an edit** are some of the outer ones, or one more is open. -/
lemma opened_next (e : Edit α) :
    (b.next e).opened <:+ b.opened ∨
      ∃ v, e = .start v ∧ (b.next e).opened = b.len :: b.opened := by
  cases e with
  | start v =>
    obtain h | ⟨-, h⟩ := b.next_start v
    · rw [h]
      exact .inl List.suffix_rfl
    · rw [h]
      exact .inr ⟨v, rfl, rfl⟩
  | leaf v =>
    obtain h | ⟨-, h⟩ := b.next_leaf v
    · rw [h]
      exact .inl List.suffix_rfl
    · rw [h]
      exact .inl List.suffix_rfl
  | finish =>
    rcases h : b.opened with _ | ⟨i, opened⟩
    · rw [b.next_finish_nil h, h]
      exact .inl List.suffix_rfl
    · rw [b.next_finish_cons h]
      exact .inl (List.suffix_cons i opened)
  | abandon =>
    rcases h : b.opened with _ | ⟨i, opened⟩
    · rw [b.next_abandon_nil h, h]
      exact .inl List.suffix_rfl
    · rw [b.next_abandon_cons h]
      exact .inl (List.suffix_cons i opened)
  | write i f =>
    rw [next_write]
    exact .inl List.suffix_rfl

end next

/-- The open nodes are slots that are there, the inner ones behind the outer ones, and every slot
can be counted. -/
structure Ordered (b : Builder cap α) : Prop where
  opened : b.opened.Pairwise (· > ·)
  inside : ∀ i ∈ b.opened, i < b.len
  counted : b.len ≤ cap

lemma Ordered.next {b : Builder cap α} (h : b.Ordered) (e : Edit α) : (b.next e).Ordered := by
  obtain ⟨hopened, hinside, hcounted⟩ := h
  have hlen : ∀ s, (b.slots ++ [s]).length = b.len + 1 := fun s => by simp [len]
  cases e with
  | start v =>
    obtain h | ⟨hroom, h⟩ := b.next_start v
    · rw [h]
      exact ⟨hopened, hinside, hcounted⟩
    · rw [h]
      refine ⟨List.pairwise_cons.mpr ⟨hinside, hopened⟩, ?_, ?_⟩
      · intro i hi
        rw [len, hlen]
        rcases List.mem_cons.mp hi with rfl | hi
        · exact Nat.lt_succ_self _
        · exact Nat.lt_succ_of_lt (hinside i hi)
      · rw [len, hlen]
        exact hroom
  | leaf v =>
    obtain h | ⟨hroom, h⟩ := b.next_leaf v
    · rw [h]
      exact ⟨hopened, hinside, hcounted⟩
    · rw [h]
      refine ⟨hopened, fun i hi => ?_, ?_⟩
      · rw [len, hlen]
        exact Nat.lt_succ_of_lt (hinside i hi)
      · rw [len, hlen]
        exact hroom
  | finish =>
    rcases h : b.opened with _ | ⟨i, opened⟩
    · rw [b.next_finish_nil h]
      exact ⟨hopened, hinside, hcounted⟩
    · rw [b.next_finish_cons h]
      rw [h] at hopened hinside
      refine ⟨hopened.of_cons, fun j hj => ?_, ?_⟩
      · rw [len, List.length_modify]
        exact hinside j (List.mem_cons_of_mem i hj)
      · rw [len, List.length_modify]
        exact hcounted
  | abandon =>
    rcases h : b.opened with _ | ⟨i, opened⟩
    · rw [b.next_abandon_nil h]
      exact ⟨hopened, hinside, hcounted⟩
    · rw [b.next_abandon_cons h]
      rw [h] at hopened hinside
      have hi : i < b.len := hinside i List.mem_cons_self
      have htake : (b.slots.take i).length = i := List.length_take_of_le (Nat.le_of_lt hi)
      refine ⟨hopened.of_cons, fun j hj => ?_, ?_⟩
      · rw [len, htake]
        exact List.rel_of_pairwise_cons hopened hj
      · rw [len, htake]
        exact Nat.le_trans (Nat.le_of_lt hi) hcounted
  | write i f =>
    rw [next_write]
    refine ⟨hopened, fun j hj => ?_, ?_⟩
    · rw [len, List.length_modify]
      exact hinside j hj
    · rw [len, List.length_modify]
      exact hcounted

lemma ordered_after (edits : List (Edit α)) : (after cap edits).Ordered := by
  induction edits using List.reverseRecOn with
  | nil => exact ⟨.nil, fun _ h => absurd h List.not_mem_nil, Nat.zero_le cap⟩
  | append_singleton edits e ih =>
    rw [after_concat]
    exact ih.next e

/-! ### Matching starts -/

/-- The node that `v` starts behind `before` is still open after any part of `mid`, and it is the
innermost open node after all of it. -/
structure Matches (cap : ℕ) (before : List (Edit α)) (v : α) (mid : List (Edit α)) : Prop where
  stays : ∀ part, part <+: mid →
    (after cap before).len :: (after cap before).opened <:+
      (after cap (before ++ .start v :: part)).opened
  innermost : (after cap (before ++ .start v :: mid)).opened =
    (after cap before).len :: (after cap before).opened

/-- **Every open node was started**, and has been open since then. -/
lemma exists_start {edits : List (Edit α)} {i : ℕ} {outer : List ℕ}
    (h : i :: outer <:+ (after cap edits).opened) :
    ∃ before v mid, edits = before ++ .start v :: mid ∧ (after cap before).len = i ∧
      (after cap before).opened = outer ∧
      ∀ part, part <+: mid → i :: outer <:+ (after cap (before ++ .start v :: part)).opened := by
  induction edits using List.reverseRecOn with
  | nil => simp [after, empty] at h
  | append_singleton edits e ih =>
    by_cases hbefore : i :: outer <:+ (after cap edits).opened
    · obtain ⟨before, v, mid, rfl, hlen, hopened, hstays⟩ := ih hbefore
      refine ⟨before, v, mid ++ [e], by simp, hlen, hopened, fun part hpart => ?_⟩
      rcases List.prefix_concat_iff.mp hpart with rfl | hpart
      · simpa using h
      · exact hstays part hpart
    · -- the edit has opened the node
      rw [after_concat] at h
      obtain hnext | ⟨v, rfl, hnext⟩ := opened_next (after cap edits) e
      · exact absurd (h.trans hnext) hbefore
      · rw [hnext] at h
        rcases List.suffix_cons_iff.mp h with heq | hsuffix
        · obtain ⟨rfl, rfl⟩ := List.cons.inj heq
          refine ⟨edits, v, [], rfl, rfl, rfl, fun part hpart => ?_⟩
          obtain rfl := List.prefix_nil.mp hpart
          have hopened : (after cap (edits ++ [.start v])).opened = _ :=
            (congrArg Builder.opened (after_concat edits (.start v))).trans hnext
          exact hopened ▸ List.suffix_rfl
        · exact absurd hsuffix hbefore

lemma exists_matches {edits : List (Edit α)} {i : ℕ} {outer : List ℕ}
    (h : (after cap edits).opened = i :: outer) :
    ∃ before v mid, edits = before ++ .start v :: mid ∧ (after cap before).len = i ∧
      Matches cap before v mid := by
  have hsuffix : i :: outer <:+ (after cap edits).opened := h ▸ List.suffix_rfl
  obtain ⟨before, v, mid, rfl, rfl, rfl, hstays⟩ := exists_start hsuffix
  exact ⟨before, v, mid, rfl, rfl, hstays, h⟩

/-- **While a node is open**, the slots before it change by what is written into them alone. -/
lemma take_next {b : Builder cap α} (h : b.Ordered) {i : ℕ} {outer : List ℕ} {e : Edit α}
    (hopen : i ∈ b.opened) (hstays : i ∈ (b.next e).opened) :
    (⟨(b.next e).slots.take i, outer⟩ : Builder cap α) =
      if e.writesBelow i then next ⟨b.slots.take i, outer⟩ e else ⟨b.slots.take i, outer⟩ := by
  have hi : i ≤ b.slots.length := Nat.le_of_lt (h.inside i hopen)
  -- what is closed or dropped while the node is open lies behind it
  have hinner : ∀ j rest, b.opened = j :: rest → i ∈ rest → i < j := by
    intro j rest hrest hmem
    have hopened := h.opened
    rw [hrest] at hopened
    exact List.rel_of_pairwise_cons hopened hmem
  cases e with
  | start v =>
    obtain hnext | ⟨-, hnext⟩ := b.next_start v
    · rw [hnext]
      rfl
    · rw [hnext, List.take_append_of_le_length hi]
      rfl
  | leaf v =>
    obtain hnext | ⟨-, hnext⟩ := b.next_leaf v
    · rw [hnext]
      rfl
    · rw [hnext, List.take_append_of_le_length hi]
      rfl
  | finish =>
    rcases hb : b.opened with _ | ⟨j, rest⟩
    · rw [b.next_finish_nil hb]
      rfl
    · rw [b.next_finish_cons hb] at hstays ⊢
      have hlt := hinner j rest hb hstays
      have hself : (b.slots.take i).length ≤ j := by
        rw [List.length_take]
        omega
      rw [List.take_modify, List.modify_eq_self hself]
      rfl
  | abandon =>
    rcases hb : b.opened with _ | ⟨j, rest⟩
    · rw [b.next_abandon_nil hb]
      rfl
    · rw [b.next_abandon_cons hb] at hstays ⊢
      have hlt := hinner j rest hb hstays
      rw [List.take_take, Nat.min_eq_left (Nat.le_of_lt hlt)]
      rfl
  | write j f =>
    rw [next_write, next_write, List.take_modify]
    by_cases hj : j < i
    · simp [Edit.writesBelow, hj]
    · have hself : (b.slots.take i).length ≤ j := by
        rw [List.length_take]
        omega
      rw [List.modify_eq_self hself]
      simp [Edit.writesBelow, hj]

/-- The slots before an open node, after everything that was asked since it was started. -/
lemma take_after {before : List (Edit α)} {v : α} {mid : List (Edit α)}
    (h : ∀ part, part <+: mid → (after cap before).len ∈
      (after cap (before ++ .start v :: part)).opened) :
    (⟨(after cap (before ++ .start v :: mid)).slots.take (after cap before).len,
        (after cap before).opened⟩ : Builder cap α) =
      after cap (before ++ mid.filter (Edit.writesBelow (after cap before).len)) := by
  induction mid using List.reverseRecOn with
  | nil =>
    have hstarted := h [] List.prefix_rfl
    rw [List.filter_nil, List.append_nil, after_concat] at *
    obtain hnext | ⟨-, hnext⟩ := (after cap before).next_start v
    · rw [hnext] at hstarted
      exact absurd ((ordered_after before).inside _ hstarted) (Nat.lt_irrefl _)
    · rw [hnext, len, List.take_left']
      rfl
  | append_singleton mid e ih =>
    have hmid := h mid (List.prefix_append mid [e])
    have hstays := h (mid ++ [e]) List.prefix_rfl
    have hstep : after cap (before ++ .start v :: (mid ++ [e])) =
        (after cap (before ++ .start v :: mid)).next e := by
      rw [← after_concat]
      simp
    rw [hstep] at hstays ⊢
    rw [take_next (ordered_after _) hmid hstays,
      ih fun part hpart => h part (hpart.trans (List.prefix_append mid [e])), List.filter_append,
      ← List.append_assoc]
    by_cases he : e.writesBelow (after cap before).len
    · rw [if_pos he, ← after_concat]
      simp [he]
    · rw [if_neg he]
      simp [he]

/-- **Abandoning** a node goes back to where it was started, and keeps what was written into
earlier slots since. -/
theorem after_abandon {before : List (Edit α)} {v : α} {mid : List (Edit α)}
    (h : Matches cap before v mid) :
    after cap (before ++ .start v :: mid ++ [.abandon]) =
      after cap (before ++ mid.filter (Edit.writesBelow (after cap before).len)) := by
  rw [after_concat, next_abandon_cons _ h.innermost]
  refine take_after fun part hpart => ?_
  exact (h.stays part hpart).subset List.mem_cons_self

end Builder

/-! ### Drafts in place -/

/-- A draft as three arrays; the innermost open node is the last of them. -/
structure DraftArrays (α : Type) where
  skips : List ℕ
  values : List α
  opened : List ℕ

namespace DraftArrays

open InPlace

variable {cap : ℕ} {α : Type}

def empty : DraftArrays α := ⟨[], [], []⟩

def ofBuilder (b : Builder cap α) : DraftArrays α :=
  ⟨b.slots.map Slot.skip, b.slots.map Slot.value, b.opened.reverse⟩

def push (cap : ℕ) (v : α) : InPlace (DraftArrays α) ℕ := do
  let a ← get
  if a.opened.isEmpty && !a.skips.isEmpty then throw .secondRoot
  else do
    let index ← check (nextIndex cap a.skips.length)
    set { a with skips := a.skips ++ [1] }
    let a ← get
    set { a with values := a.values ++ [v] }
    return index

/-- Takes the innermost open node off the open ones. -/
def pop : InPlace (DraftArrays α) ℕ := do
  let a ← get
  match a.opened.getLast? with
  | none => throw .noneOpen
  | some index => do
    set { a with opened := a.opened.dropLast }
    return index

def setSkip (index skip : ℕ) : InPlace (DraftArrays α) Unit := do
  let a ← get
  if index < a.skips.length then set { a with skips := a.skips.set index skip }
  else throw (.outside index)

def startNode (cap : ℕ) (v : α) : InPlace (DraftArrays α) ℕ := do
  let index ← push cap v
  let a ← get
  set { a with opened := a.opened ++ [index] }
  return index

def finishNode (cap : ℕ) : InPlace (DraftArrays α) ℕ := do
  let index ← pop
  let a ← get
  let skip ← check (stored cap (a.skips.length - index))
  setSkip index skip
  check (stored cap index)

def abandonNode : InPlace (DraftArrays α) Unit := do
  let index ← pop
  let a ← get
  set { a with skips := a.skips.take index }
  let a ← get
  set { a with values := a.values.take index }

def modifyValue (index : ℕ) (f : α → α) : InPlace (DraftArrays α) Unit := do
  let a ← get
  if index < a.values.length then set { a with values := a.values.modify index f }
  else throw (.outside index)

def edit (cap : ℕ) : Edit α → InPlace (DraftArrays α) (Option ℕ)
  | .start v => do return some (← startNode cap v)
  | .leaf v => do return some (← push cap v)
  | .finish => do return some (← finishNode cap)
  | .abandon => do abandonNode; return none
  | .write index f => do modifyValue index f; return none

def after (cap : ℕ) (edits : List (Edit α)) : DraftArrays α :=
  edits.foldl (fun a e => (run (edit cap e) a).2) empty

/-- What is answered and left behind where the arrays are those of a builder `b`. -/
def outcome {β : Type} (b : Builder cap α) :
    Except TreeError (β × Builder cap α) → Except TreeError β × DraftArrays α
  | .ok p => (.ok p.1, ofBuilder p.2)
  | .error e => (.error e, ofBuilder b)

lemma run_bind_error {σ β γ : Type} {x : InPlace σ β} {f : β → InPlace σ γ} {s t : σ}
    {e : TreeError} (h : run x s = (.error e, t)) : run (x >>= f) s = (.error e, t) := by
  change StateT.run (StateT.bind x (ExceptT.bindCont f)) s = _
  have hx : StateT.run x s = (.error e, t) := h
  simp only [StateT.bind, StateT.run] at hx ⊢
  rw [hx]
  rfl

lemma run_bind_outcome {β γ : Type} {b : Builder cap α} {x : InPlace (DraftArrays α) β}
    {y : Except TreeError (β × Builder cap α)} {f : β → InPlace (DraftArrays α) γ} :
    run x (ofBuilder b) = outcome b y →
      run (x >>= f) (ofBuilder b) =
        match y with
        | .ok p => run (f p.1) (ofBuilder p.2)
        | .error e => (.error e, ofBuilder b) := by
  intro h
  cases y with
  | error e => exact run_bind_error h
  | ok p => exact run_bind_ok h

variable {b : Builder cap α}

lemma isEmpty_ofBuilder :
    ((ofBuilder b).opened.isEmpty && !(ofBuilder b).skips.isEmpty) =
      (b.opened.isEmpty && !b.isEmpty) := by
  simp [ofBuilder, Builder.isEmpty]

lemma length_skips_ofBuilder : (ofBuilder b).skips.length = b.len := by
  simp [ofBuilder, Builder.len]

lemma run_push (v : α) : run (push cap v) (ofBuilder b) = outcome b (b.leaf v) := by
  rw [push, Builder.leaf, run_get_bind, isEmpty_ofBuilder, length_skips_ofBuilder]
  split_ifs with hroot
  · rfl
  · rcases Nat.lt_or_ge b.len cap with hroom | hfull
    · rw [run_check_ok (nextIndex_of_lt hroom), nextIndex_of_lt hroom, run_set_bind, run_get_bind,
        run_set_bind, run_pure]
      change _ = (_, ofBuilder (⟨b.slots ++ [⟨1, v⟩], b.opened⟩ : Builder cap α))
      simp [ofBuilder]
    · rw [run_check_error (nextIndex_of_le hfull), nextIndex_of_le hfull]
      rfl

lemma run_startNode (v : α) :
    run (startNode cap v) (ofBuilder b) = outcome b (b.startNode v) := by
  rw [startNode, Builder.startNode, run_bind_outcome (run_push v)]
  rcases h : b.leaf v with e | ⟨i, c⟩
  · rfl
  · simp only [run_get_bind, run_set_bind, run_pure]
    change _ = (_, ofBuilder (⟨c.slots, i :: c.opened⟩ : Builder cap α))
    simp [ofBuilder]

lemma run_pop_nil (h : b.opened = []) :
    run pop (ofBuilder b) = (.error .noneOpen, ofBuilder b) := by
  rw [pop, run_get_bind]
  simp only [ofBuilder, h, List.reverse_nil, List.getLast?_nil]
  rfl

lemma run_pop_cons {i : ℕ} {opened : List ℕ} (h : b.opened = i :: opened) :
    run pop (ofBuilder b) = (.ok i, { ofBuilder b with opened := opened.reverse }) := by
  rw [pop, run_get_bind]
  simp only [ofBuilder, h, List.reverse_cons, List.getLast?_concat, List.dropLast_concat]
  rfl

lemma run_setSkip {i skip : ℕ} {a : DraftArrays α} (h : i < a.skips.length) :
    run (setSkip i skip) a = (.ok (), { a with skips := a.skips.set i skip }) := by
  rw [setSkip, run_get_bind, if_pos h]
  rfl

lemma map_modify_skip (slots : List (Slot α)) (i skip : ℕ) :
    (slots.modify i fun s => { s with skip }).map Slot.skip = (slots.map Slot.skip).set i skip ∧
      (slots.modify i fun s => { s with skip }).map Slot.value = slots.map Slot.value := by
  induction slots generalizing i with
  | nil => simp
  | cons s slots ih =>
    cases i with
    | zero => simp
    | succ i => simp [ih i]

lemma map_modify_value (slots : List (Slot α)) (i : ℕ) (f : α → α) :
    (slots.modify i fun s => { s with value := f s.value }).map Slot.skip =
        slots.map Slot.skip ∧
      (slots.modify i fun s => { s with value := f s.value }).map Slot.value =
        (slots.map Slot.value).modify i f := by
  induction slots generalizing i with
  | nil => simp
  | cons s slots ih =>
    cases i with
    | zero => simp
    | succ i => simp [ih i]

/-- The skip of a finished node is written without fail, for it counts no more than all slots. -/
lemma run_finishNode (h : b.Ordered) :
    run (finishNode cap) (ofBuilder b) = outcome b b.finishNode := by
  rw [finishNode, Builder.finishNode]
  rcases hb : b.opened with _ | ⟨i, opened⟩
  · exact run_bind_error (run_pop_nil hb)
  · have hi : i < b.len := h.inside i (hb ▸ List.mem_cons_self)
    have hcounted := h.counted
    have hskip : stored cap (b.len - i) = .ok (b.len - i) := stored_of_le (by omega)
    have hindex : stored cap i = .ok i := stored_of_le (by omega)
    have hlen : (ofBuilder b).skips.length = b.len := length_skips_ofBuilder
    rw [run_bind_ok (run_pop_cons hb), run_get_bind]
    simp only [hlen]
    rw [run_check_ok hskip, run_bind_ok (run_setSkip (by rwa [hlen])), run_check, hindex]
    change _ = (_, ofBuilder (⟨b.slots.modify i fun s => { s with skip := b.len - i }, opened⟩ :
      Builder cap α))
    simp only [ofBuilder, map_modify_skip]

lemma run_abandonNode :
    run abandonNode (ofBuilder b) = outcome b (b.abandonNode.map fun c => ((), c)) := by
  rw [abandonNode, Builder.abandonNode]
  rcases hb : b.opened with _ | ⟨i, opened⟩
  · exact run_bind_error (run_pop_nil hb)
  · rw [run_bind_ok (run_pop_cons hb), run_get_bind, run_set_bind, run_get_bind]
    change (_, _) = (_, ofBuilder (⟨b.slots.take i, opened⟩ : Builder cap α))
    simp only [ofBuilder, List.map_take]

lemma run_modifyValue (i : ℕ) (f : α → α) :
    run (modifyValue i f) (ofBuilder b) = outcome b ((b.modifyValue i f).map fun c => ((), c)) := by
  have hlen : (ofBuilder b).values.length = b.len := by simp [ofBuilder, Builder.len]
  rw [modifyValue, Builder.modifyValue, run_get_bind, hlen]
  split_ifs with hi
  · change (_, _) = (_, ofBuilder (⟨b.slots.modify i fun s => { s with value := f s.value },
      b.opened⟩ : Builder cap α))
    simp only [ofBuilder, map_modify_value]
  · rfl

/-- **An edit in place** is the edit of the builder; if it is refused, nothing was written. -/
theorem run_edit (h : b.Ordered) (e : Edit α) :
    run (edit cap e) (ofBuilder b) = outcome b (b.edit e) := by
  cases e with
  | start v =>
    rw [edit, Builder.edit, run_bind_outcome (run_startNode v)]
    cases b.startNode v <;> rfl
  | leaf v =>
    rw [edit, Builder.edit, run_bind_outcome (run_push v)]
    cases b.leaf v <;> rfl
  | finish =>
    rw [edit, Builder.edit, run_bind_outcome (run_finishNode h)]
    cases b.finishNode <;> rfl
  | abandon =>
    rw [edit, Builder.edit, run_bind_outcome run_abandonNode]
    cases b.abandonNode <;> rfl
  | write i f =>
    rw [edit, Builder.edit, run_bind_outcome (run_modifyValue i f)]
    cases b.modifyValue i f <;> rfl

lemma after_eq_ofBuilder (edits : List (Edit α)) :
    after cap edits = ofBuilder (Builder.after cap edits) := by
  induction edits using List.reverseRecOn with
  | nil => rfl
  | append_singleton edits e ih =>
    have hstep : after cap (edits ++ [e]) = (run (edit cap e) (after cap edits)).2 := by
      rw [after, List.foldl_append]
      rfl
    rw [hstep, ih, run_edit (Builder.ordered_after edits), Builder.after_concat, Builder.next]
    cases (Builder.after cap edits).edit e <;> rfl

end DraftArrays

end Stylesheet
