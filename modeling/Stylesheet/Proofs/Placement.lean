import Stylesheet.Proofs.Arrays
import Stylesheet.Proofs.Growth
import Stylesheet.Proofs.Overlay

/-!
Insertions into a sparse tree in place. The loops that look for the place of a node and for the end
of what it takes in go from slot to slot like the searches in the list of slots do. No slot is read
that is not there, and no number outgrows a word that can count the slots.
-/

namespace Stylesheet

open InPlace

namespace SparseArrays

open SparseTree

variable {cap : ℕ} {α : Type} {reference : List ℕ} {node : ℕ}

/-- Every slot owns its own place and none past the end. -/
def InBounds : List (Slot (Note α)) → Prop
  | [] => True
  | s :: r => (0 < s.skip ∧ s.skip ≤ 1 + r.length) ∧ InBounds r

lemma inBounds_overlay {stop : ℕ → ℕ} {ns : List (Note α)} : InBounds (overlay stop ns) := by
  induction ns with
  | nil => trivial
  | cons n ns ih =>
    have hle : below ns (stop n.node) ≤ ns.length := below_le
    refine ⟨⟨Nat.add_pos_left Nat.one_pos _, ?_⟩, ih⟩
    rw [length_overlay]
    exact Nat.add_le_add_left hle 1

lemma locate_inBounds {stop : ℕ → ℕ} {room n : ℕ} {slots : List (Slot (Note α))}
    (hb : InBounds slots) (hroom : room ≤ slots.length) :
    InBounds (locate stop node room n slots).after ∧
      (locate stop node room n slots).room ≤ (locate stop node room n slots).after.length ∧
      (locate stop node room n slots).before.length +
        (locate stop node room n slots).after.length = slots.length := by
  fun_induction locate stop node room n slots with
  | case1 room n => exact ⟨hb, hroom, rfl⟩
  | case2 room n s r ih =>
    rw [List.length_cons] at hroom ⊢
    obtain ⟨hb', hroom', hlength⟩ := ih hb.2 (by omega)
    refine ⟨hb', hroom', ?_⟩
    simp only [Place.cons, List.length_cons]
    omega
  | case3 room s r h => exact ⟨hb, hroom, Nat.zero_add _⟩
  | case4 room s r h hin ih =>
    have hskip := hb.1
    obtain ⟨hb', hroom', hlength⟩ := ih hb.2 (by omega)
    refine ⟨hb', hroom', ?_⟩
    simp only [Place.cons, List.length_cons]
    omega
  | case5 room s r h hin ih =>
    rw [List.length_cons] at hroom ⊢
    obtain ⟨hb', hroom', hlength⟩ := ih hb.2 (by omega)
    refine ⟨hb', hroom', ?_⟩
    simp only [Place.cons, List.length_cons]
    omega

lemma absorbed_le {last room n : ℕ} {slots : List (Slot (Note α))} :
    absorbed last room n slots ≤ slots.length := by
  fun_induction absorbed last room n slots with
  | case1 => exact Nat.le_refl 0
  | case2 room n s r ih =>
    rw [List.length_cons]
    omega
  | case3 room s r h ih =>
    rw [List.length_cons]
    omega
  | case4 => exact Nat.zero_le _

lemma skipAt_nodes (done : List (Slot (Note α))) (s : Slot (Note α)) (rest : List (Slot (Note α))) :
    skipAt (ofSlots (done ++ s :: rest)).nodes done.length = .ok s.value.node :=
  skipAt_of_getElem? (by simp [ofSlots])

lemma skipAt_skips (done : List (Slot (Note α))) (s : Slot (Note α)) (rest : List (Slot (Note α))) :
    skipAt (ofSlots (done ++ s :: rest)).skips done.length = .ok s.skip :=
  skipAt_of_getElem? (by simp [ofSlots])

/-- **One turn** of the search for a place: it stops at a slot that comes later, enters one whose
subtree holds the node, which grows, and passes over any other. -/
lemma run_locateTurn {stop : ℕ} {s : Slot (Note α)} {done rest : List (Slot (Note α))}
    (hstop : done.length < stop) (href : s.value.node < reference.length)
    (hcap : s.skip + 1 ≤ cap) :
    run (locateTurn cap reference node ⟨done.length, stop⟩) (ofSlots (done ++ s :: rest)) =
      if node < s.value.node then (.ok ⟨done.length, stop⟩, ofSlots (done ++ s :: rest))
      else if node < extent reference s.value.node then
        (.ok ⟨done.length + 1, done.length + s.skip⟩, ofSlots (done ++ s.grow :: rest))
      else (.ok ⟨done.length + s.skip, stop⟩, ofSlots (done ++ s :: rest)) := by
  have hentry := List.getElem?_eq_getElem href
  have hextent := skipAt_of_getElem? hentry
  rw [locateTurn, if_pos hstop, run_get_bind, run_check_ok (skipAt_nodes done s rest),
    extent_eq hentry]
  split_ifs with hlater hinside
  · rfl
  · rw [run_check_ok (skipAt_skips done s rest), run_check_ok hextent, if_pos hinside,
      run_check_ok (stored_of_le hcap), run_set_bind]
    simp [ofSlots, Slot.grow]
  · rw [run_check_ok (skipAt_skips done s rest), run_check_ok hextent, if_neg hinside]
    rfl

/-- The search has come to a place behind the slots in `done`. A cursor past the end of its run has
no room left. -/
def ComesTo (result : Except TreeError Cursor × SparseArrays α) (done : List (Slot (Note α)))
    (p : Place α) : Prop :=
  ∃ stop, stop - (done.length + p.before.length) = p.room ∧
    result = (.ok ⟨done.length + p.before.length, stop⟩, ofSlots (done ++ (p.before ++ p.after)))

lemma ComesTo.cons {result : Except TreeError Cursor × SparseArrays α}
    {done : List (Slot (Note α))} {s : Slot (Note α)} {p : Place α}
    (h : ComesTo result (done ++ [s]) p) : ComesTo result done (p.cons s) := by
  obtain ⟨stop, hstop, rfl⟩ := h
  have hindex : (done ++ [s]).length + p.before.length =
      done.length + (p.cons s).before.length := by
    simp only [Place.cons, List.length_append, List.length_cons, List.length_nil]
    omega
  rw [hindex] at hstop ⊢
  exact ⟨stop, hstop, by simp [Place.cons]⟩

/-- **The search for a place** comes to it within as many turns as there are slots. -/
theorem run_locate {slots done : List (Slot (Note α))} {room n stop k : ℕ} (hb : InBounds slots)
    (href : ∀ s ∈ slots, s.value.node < reference.length) (hn : n ≤ slots.length)
    (hroom : room ≤ slots.length) (hcap : slots.length < cap) (hk : slots.length ≤ k)
    (hstop : stop - done.length = room) :
    ComesTo (run (turns (locateTurn cap reference node) k ⟨done.length + n, stop⟩)
      (ofSlots (done ++ slots))) done (locate (extent reference) node room n slots) := by
  induction slots generalizing room n stop k done with
  | nil =>
    obtain rfl : n = 0 := Nat.le_zero.mp hn
    obtain rfl : room = 0 := Nat.le_zero.mp hroom
    refine ⟨stop, hstop, run_turns_idle ?_ k⟩
    rw [locateTurn, if_neg (by simp only; omega)]
    rfl
  | cons s r ih =>
    rw [List.length_cons] at hn hroom hcap hk
    obtain ⟨⟨hpos, hle⟩, hb'⟩ := hb
    have href' : ∀ s ∈ r, s.value.node < reference.length := fun u hu =>
      href u (List.mem_cons_of_mem s hu)
    have hlength (u : Slot (Note α)) : (done ++ [u]).length = done.length + 1 := by simp
    have hslots (u : Slot (Note α)) : done ++ u :: r = done ++ [u] ++ r := by simp
    cases n with
    | succ n =>
      have hrest := @ih (done ++ [s]) (room - 1) n stop k hb' href' (by omega) (by omega) (by omega)
        (by omega) (by rw [hlength]; omega)
      rw [hlength, ← hslots, Nat.add_right_comm] at hrest
      exact hrest.cons
    | zero =>
      rw [locate]
      by_cases hidle : room = 0 ∨ node < s.value.node
      · rw [if_pos hidle]
        refine ⟨stop, hstop, run_turns_idle ?_ k⟩
        rcases Nat.lt_or_ge done.length stop with hlt | hge
        · rw [Nat.add_zero, run_locateTurn hlt (href s List.mem_cons_self) (by omega),
            if_pos (by omega)]
        · rw [locateTurn, if_neg (by simp only; omega)]
          rfl
      · obtain ⟨k, rfl⟩ : ∃ m, k = m + 1 := ⟨k - 1, by omega⟩
        have hturn := @run_locateTurn cap _ reference node stop s done r (by omega)
          (href s List.mem_cons_self) (by omega)
        rw [if_neg (by omega)] at hturn
        rw [if_neg hidle, Nat.add_zero done.length]
        split_ifs at hturn ⊢ with hinside
        · have hrest := @ih (done ++ [s.grow]) (s.skip - 1) 0 (done.length + s.skip) k hb' href'
            (by omega) (by omega) (by omega) (by omega) (by rw [hlength]; omega)
          rw [hlength, ← hslots] at hrest
          rw [run_turns_succ hturn]
          exact hrest.cons
        · have hrest := @ih (done ++ [s]) (room - 1) (s.skip - 1) stop k hb' href'
            (by omega) (by omega) (by omega) (by omega) (by rw [hlength]; omega)
          have hindex : done.length + 1 + (s.skip - 1) = done.length + s.skip := by omega
          rw [hlength, hindex, ← hslots] at hrest
          rw [run_turns_succ hturn]
          exact hrest.cons

lemma run_absorbTurn {last stop : ℕ} {s : Slot (Note α)} {done rest : List (Slot (Note α))} :
    run (absorbTurn last stop done.length) (ofSlots (done ++ s :: rest)) =
      (.ok (if done.length < stop ∧ s.value.node < last then done.length + s.skip
        else done.length), ofSlots (done ++ s :: rest)) := by
  unfold absorbTurn
  by_cases hstop : done.length < stop
  · rw [if_pos hstop, run_get_bind, run_check_ok (skipAt_nodes done s rest)]
    by_cases hlast : s.value.node < last
    · rw [if_pos hlast, run_check_ok (skipAt_skips done s rest), if_pos ⟨hstop, hlast⟩]
      rfl
    · rw [if_neg hlast, if_neg (fun h => hlast h.2)]
      rfl
  · rw [if_neg hstop, if_neg (fun h => hstop h.1)]
    rfl

/-- **The search for the end** of what a new slot takes in. -/
theorem run_absorb {slots done : List (Slot (Note α))} {last room n stop k : ℕ}
    (hb : InBounds slots) (hn : n ≤ slots.length) (hroom : room ≤ slots.length)
    (hk : slots.length ≤ k) (hstop : stop - done.length = room) :
    run (turns (absorbTurn last stop) k (done.length + n)) (ofSlots (done ++ slots)) =
      (.ok (done.length + absorbed last room n slots), ofSlots (done ++ slots)) := by
  induction slots generalizing room n k done with
  | nil =>
    obtain rfl : n = 0 := Nat.le_zero.mp hn
    obtain rfl : room = 0 := Nat.le_zero.mp hroom
    refine run_turns_idle ?_ k
    rw [absorbTurn, if_neg (by omega)]
    rfl
  | cons s r ih =>
    rw [List.length_cons] at hn hroom hk
    obtain ⟨⟨hpos, hle⟩, hb'⟩ := hb
    have hlength : (done ++ [s]).length = done.length + 1 := by simp
    have hslots : done ++ s :: r = done ++ [s] ++ r := by simp
    have hrest (room n k : ℕ) := @ih (done ++ [s]) room n k hb'
    rw [hlength, ← hslots] at hrest
    cases n with
    | succ n =>
      have hend := hrest (room - 1) n k (by omega) (by omega) (by omega) (by omega)
      rw [Nat.add_right_comm] at hend
      rw [absorbed, ← Nat.add_assoc, ← Nat.add_assoc]
      exact hend
    | zero =>
      rw [absorbed, Nat.add_zero]
      have hturn := @run_absorbTurn _ last stop s done r
      by_cases hin : 0 < room ∧ s.value.node < last
      · obtain ⟨k, rfl⟩ : ∃ m, k = m + 1 := ⟨k - 1, by omega⟩
        have hend := hrest (room - 1) (s.skip - 1) k (by omega) (by omega) (by omega) (by omega)
        have hindex : done.length + 1 + (s.skip - 1) = done.length + s.skip := by omega
        rw [hindex] at hend
        rw [if_pos (by omega)] at hturn
        rw [if_pos hin, run_turns_succ hturn, hend, Nat.add_assoc]
      · rw [if_neg (by omega)] at hturn
        rw [if_neg hin, Nat.add_zero]
        exact run_turns_idle hturn k

lemma run_insertSlot {before after : List (Slot (Note α))} (skip : ℕ) (v : α) :
    run (insertSlot before.length skip node v) (ofSlots (before ++ after)) =
      (.ok (), ofSlots (before ++ ⟨skip, ⟨node, v⟩⟩ :: after)) := by
  have hle : before.length ≤ (ofSlots (before ++ after)).skips.length := by simp [ofSlots]
  have hmap {β : Type} (f : Slot (Note α) → β) (y : β) :
      ((before ++ after).map f).insertIdx before.length y = before.map f ++ y :: after.map f := by
    have hinsert := SkipTree.insertIdx_append (before.map f) (after.map f) 0 y
    rwa [List.length_map, Nat.add_zero, ← List.map_append, List.insertIdx_zero] at hinsert
  rw [insertSlot, run_get_bind]
  simp only [if_pos hle]
  simp only [ofSlots, hmap]
  simp only [List.map_append, List.map_cons]
  rfl

/-- The two loops and the new slot. No number is too large for a word that can count the slots. -/
lemma run_place {slots : List (Slot (Note α))} (hb : InBounds slots)
    (href : ∀ s ∈ slots, s.value.node < reference.length) (hcap : slots.length < cap) (v : α) :
    run (place cap reference node (extent reference node) v) (ofSlots slots) =
      (.ok (addNote reference node v slots).1, ofSlots (addNote reference node v slots).2) := by
  have hlength : (ofSlots slots).skips.length = slots.length := by simp [ofSlots]
  obtain ⟨hb', hroom, hlengths⟩ := @locate_inBounds _ node (extent reference) slots.length 0 slots
    hb (Nat.le_refl _)
  have hcomes := @run_locate cap _ reference node slots [] slots.length 0 slots.length slots.length
    hb href (Nat.zero_le _) (Nat.le_refl _) hcap (Nat.le_refl _) (Nat.sub_zero _)
  rw [addNote]
  generalize locate (extent reference) node slots.length 0 slots = p at *
  obtain ⟨stop, hstop, hlocate⟩ := hcomes
  simp only [List.nil_append, List.length_nil, Nat.zero_add] at hstop hlocate
  have habsorb := @run_absorb _ p.after p.before (extent reference node) p.room 0 stop slots.length
    hb' (Nat.zero_le _) hroom (by omega) hstop
  have hle : absorbed (extent reference node) p.room 0 p.after ≤ p.after.length := absorbed_le
  have hskip : stored cap (p.before.length + absorbed (extent reference node) p.room 0 p.after -
      p.before.length + 1) = .ok (absorbed (extent reference node) p.room 0 p.after + 1) := by
    rw [Nat.add_sub_cancel_left, stored_of_le (by omega)]
  have hindex : stored cap p.before.length = .ok p.before.length := stored_of_le (by omega)
  rw [Nat.add_zero] at habsorb
  rw [place, run_get_bind, hlength, run_bind_ok hlocate]
  simp only
  rw [run_bind_ok habsorb, run_check_ok hskip,
    run_bind_ok (run_insertSlot _ v), run_check, hindex]

/-- **An insertion in place** does what it does to the slots. If it is refused, nothing was written,
and else nothing fails. -/
theorem run_insert {slots : List (Slot (Note α))} (hb : InBounds slots)
    (href : ∀ s ∈ slots, s.value.node < reference.length) (v : α) :
    run (insert cap reference node v) (ofSlots slots) =
      match SparseTree.insert (⟨slots⟩ : SparseTree cap α) reference node v with
      | .ok p => (.ok p.1, ofSlots p.2.slots)
      | .error e => (.error e, ofSlots slots) := by
  have hlength : (ofSlots slots).skips.length = slots.length := by simp [ofSlots]
  have hnodes : (ofSlots slots).nodes = SparseTree.nodes (⟨slots⟩ : SparseTree cap α) := rfl
  rw [insert_eq, SparseTree.len, insert, run_get_bind, hlength, hnodes, List.contains_eq_mem]
  by_cases hnode : reference.length ≤ node
  · rw [if_pos hnode, if_pos hnode]
    rfl
  rw [if_neg hnode, if_neg hnode]
  by_cases hnew : node ∈ SparseTree.nodes (⟨slots⟩ : SparseTree cap α)
  · rw [if_pos hnew, if_pos (by simpa using hnew)]
    rfl
  rw [if_neg hnew, if_neg (by simpa using hnew)]
  have hentry := List.getElem?_eq_getElem (Nat.lt_of_not_le hnode)
  rw [run_check_ok (skipAt_of_getElem? hentry), ← extent_eq hentry]
  by_cases hcap : slots.length < cap
  · rw [if_pos hcap, run_check_ok (nextIndex_of_lt hcap), run_place hb href hcap]
  · rw [if_neg hcap, run_check_error (nextIndex_of_le (Nat.le_of_not_lt hcap))]

end SparseArrays

end Stylesheet
