import Stylesheet.Proofs.Subtrees
import Stylesheet.Tree.Sparse

/-!
Values for some nodes of a reference tree. The slots that an insertion leaves are those of the notes
in the order of their nodes, each with a skip that counts the notes of its subtree in the reference.
-/

namespace Stylesheet

namespace SparseTree

variable {cap : ℕ} {α : Type}

/-! ### Slots of notes in order -/

def below (ns : List (Note α)) (b : ℕ) : ℕ := ns.countP fun n => n.node < b

/-- The slots of notes in order: each counts itself and the later ones in its subtree. -/
def overlay (stop : ℕ → ℕ) : List (Note α) → List (Slot (Note α))
  | [] => []
  | n :: ns => ⟨1 + below ns (stop n.node), n⟩ :: overlay stop ns

/-- The notes are in the order of their nodes, each for a node of its own. -/
abbrev Ordered (ns : List (Note α)) : Prop := ns.Pairwise fun m n => m.node < n.node

/-- A subtree that starts inside another ends inside it. -/
def Laminar (stop : ℕ → ℕ) (ns : List (Note α)) : Prop :=
  ∀ m ∈ ns, ∀ n ∈ ns, m.node < n.node → n.node < stop m.node → stop n.node ≤ stop m.node

/-- No subtree that starts before `b` goes on past it. -/
def Closed (stop : ℕ → ℕ) (b : ℕ) (ns : List (Note α)) : Prop :=
  ∀ n ∈ ns, n.node < b → stop n.node ≤ b

variable {stop : ℕ → ℕ} {n x : Note α} {ns lo hi : List (Note α)} {b : ℕ}

@[simp] lemma below_nil : below ([] : List (Note α)) b = 0 := rfl

lemma below_cons : below (n :: ns) b = below ns b + if n.node < b then 1 else 0 := by
  simp [below, List.countP_cons]

lemma below_append : below (lo ++ hi) b = below lo b + below hi b := by
  simp [below, List.countP_append]

lemma below_le : below ns b ≤ ns.length := List.countP_le_length

lemma below_eq_zero (h : ∀ n ∈ ns, b ≤ n.node) : below ns b = 0 := by
  rw [below, List.countP_eq_zero]
  intro n hn
  have hle := h n hn
  simpa using hle

lemma below_eq_length (h : ∀ n ∈ ns, n.node < b) : below ns b = ns.length := by
  rw [below, List.countP_eq_length]
  intro n hn
  simpa using h n hn

lemma below_cons_of_le (hs : Ordered (n :: ns)) (h : b ≤ n.node) : below (n :: ns) b = 0 := by
  refine below_eq_zero fun m hm => ?_
  rcases List.mem_cons.mp hm with rfl | hm
  · exact h
  · have hlt := List.rel_of_pairwise_cons hs hm
    omega

lemma below_cons_of_lt (h : n.node < b) : below (n :: ns) b = below ns b + 1 := by
  rw [below_cons, if_pos h]

@[simp] lemma overlay_nil : overlay stop ([] : List (Note α)) = [] := rfl

@[simp] lemma overlay_cons :
    overlay stop (n :: ns) = ⟨1 + below ns (stop n.node), n⟩ :: overlay stop ns := rfl

@[simp] lemma map_value_overlay : (overlay stop ns).map Slot.value = ns := by
  induction ns with
  | nil => rfl
  | cons n ns ih => rw [overlay_cons, List.map_cons, ih]

@[simp] lemma length_overlay : (overlay stop ns).length = ns.length := by
  rw [← List.length_map Slot.value, map_value_overlay]

lemma drop_overlay : (overlay stop (lo ++ hi)).drop lo.length = overlay stop hi := by
  induction lo with
  | nil => rfl
  | cons n lo ih => rw [List.cons_append, overlay_cons, List.length_cons, List.drop_succ_cons, ih]

/-! ### The place of a note -/

/-- **The place of a note.** Before it are the slots of smaller nodes, which count it where they
should; behind it are the others, as many of them in reach as are before some `limit` that the
note's own subtree does not pass. -/
theorem locate_overlay {room n limit passed : ℕ} (hs : Ordered (lo ++ hi))
    (hlo : ∀ l ∈ lo, l.node < x.node) (hhi : ∀ h ∈ hi, x.node < h.node)
    (hlam : Laminar stop (lo ++ x :: hi)) (hpos : x.node < stop x.node)
    (hlimit : stop x.node ≤ limit) (hroom : room = below (lo ++ hi) limit)
    (hpassed : passed ≤ x.node) (hclosed : Closed stop passed lo)
    (hn : n = below (lo ++ hi) passed) :
    ∃ limit', stop x.node ≤ limit' ∧ locate stop x.node room n (overlay stop (lo ++ hi)) =
      ⟨(overlay stop (lo ++ x :: hi)).take lo.length, below hi limit', overlay stop hi⟩ := by
  -- along the smaller notes; `n` of them are passed over, as they end before the note
  induction lo generalizing room n limit passed with
  | nil =>
    rw [List.nil_append] at hroom hn
    have hnone : n = 0 := by
      rw [hn]
      refine below_eq_zero fun h hh => ?_
      have hlt := hhi h hh
      omega
    refine ⟨limit, hlimit, ?_⟩
    rw [hnone, hroom]
    cases hi with
    | nil => rfl
    | cons h hi =>
      have hlt := hhi h List.mem_cons_self
      rw [List.nil_append, overlay_cons, locate, if_pos (.inr hlt)]
      rfl
  | cons l lo ih =>
    rw [List.cons_append] at hs hroom hn
    have hltx := hlo l List.mem_cons_self
    have hs' : Ordered (lo ++ hi) := hs.of_cons
    have hlo' : ∀ m ∈ lo, m.node < x.node := fun m hm => hlo m (List.mem_cons_of_mem l hm)
    have hlam' : Laminar stop (lo ++ x :: hi) := fun m hm k hk =>
      hlam m (List.mem_cons_of_mem l hm) k (List.mem_cons_of_mem l hk)
    have hroom' : room - 1 = below (lo ++ hi) limit := by
      rw [hroom, below_cons_of_lt (by omega), Nat.add_sub_cancel]
    have hskip : below (lo ++ x :: hi) (stop l.node) =
        below (lo ++ hi) (stop l.node) + if x.node < stop l.node then 1 else 0 := by
      rw [below_append, below_append, below_cons, Nat.add_assoc]
    rw [List.cons_append, overlay_cons, List.cons_append, overlay_cons, List.length_cons,
      List.take_succ_cons, hskip]
    cases n with
    | succ n =>
      have hin : l.node < passed := by
        by_contra hout
        rw [below_cons_of_le hs (by omega)] at hn
        cases hn
      have hend := hclosed l List.mem_cons_self hin
      have hn' : n = below (lo ++ hi) passed := by
        rw [below_cons_of_lt hin] at hn
        omega
      obtain ⟨limit', hlimit', hlocate⟩ := ih hs' hlo' hlam' hlimit hroom' hpassed
        (fun m hm => hclosed m (List.mem_cons_of_mem l hm)) hn'
      refine ⟨limit', hlimit', ?_⟩
      rw [locate, hlocate, if_neg (by omega)]
      rfl
    | zero =>
      have hsome : ¬ (room = 0 ∨ x.node < l.node) := by
        rw [hroom, below_cons_of_lt (by omega)]
        omega
      rw [locate, if_neg hsome, Nat.add_sub_cancel_left]
      split_ifs with hinside
      · -- the note lies below this slot, which is entered and counts it
        have hnest := hlam l List.mem_cons_self x
          (List.mem_cons_of_mem l (List.mem_append_right lo List.mem_cons_self)) hltx hinside
        have hn' : 0 = below (lo ++ hi) 0 := (below_eq_zero fun m _ => Nat.zero_le m.node).symm
        obtain ⟨limit', hlimit', hlocate⟩ := ih hs' hlo' hlam' hnest rfl (Nat.zero_le x.node)
          (fun m _ hm => absurd hm (Nat.not_lt_zero m.node)) hn'
        refine ⟨limit', hlimit', ?_⟩
        rw [hlocate]
        simp only [Place.cons, Slot.grow, Nat.add_assoc]
      · -- it lies behind the whole subtree
        have hclosed' : Closed stop (stop l.node) lo := fun m hm hlt =>
          hlam l List.mem_cons_self m (List.mem_cons_of_mem l (List.mem_append_left (x :: hi) hm))
            (List.rel_of_pairwise_cons hs (List.mem_append_left hi hm)) hlt
        obtain ⟨limit', hlimit', hlocate⟩ := ih hs' hlo' hlam' hlimit hroom'
          (Nat.le_of_not_lt hinside) hclosed' rfl
        refine ⟨limit', hlimit', ?_⟩
        rw [hlocate]
        rfl

/-- **What a note takes in**: the later notes before the end of its subtree. -/
theorem absorbed_overlay {room n last limit passed : ℕ} (hs : Ordered ns)
    (hclosed : Closed stop last ns) (hlimit : last ≤ limit) (hroom : room = below ns limit)
    (hpassed : passed ≤ last) (hn : n = below ns passed) :
    absorbed last room n (overlay stop ns) = below ns last := by
  induction ns generalizing room n passed with
  | nil => rfl
  | cons m ns ih =>
    have hclosed' : Closed stop last ns := fun k hk => hclosed k (List.mem_cons_of_mem m hk)
    have hroom' (hlt : m.node < last) : room - 1 = below ns limit := by
      rw [hroom, below_cons_of_lt (by omega), Nat.add_sub_cancel]
    rw [overlay_cons]
    cases n with
    | succ n =>
      have hin : m.node < passed := by
        by_contra hout
        rw [below_cons_of_le hs (by omega)] at hn
        cases hn
      have hn' : n = below ns passed := by
        rw [below_cons_of_lt hin] at hn
        omega
      rw [absorbed, ih hs.of_cons hclosed' (hroom' (by omega)) hpassed hn',
        below_cons_of_lt (by omega), Nat.add_comm]
    | zero =>
      rw [absorbed, Nat.add_sub_cancel_left]
      split_ifs with hin
      · have hend := hclosed m List.mem_cons_self hin.2
        rw [ih hs.of_cons hclosed' (hroom' hin.2) hend rfl, below_cons_of_lt hin.2,
          Nat.add_comm]
      · have hout : last ≤ m.node := by
          by_contra hlt
          refine hin ⟨?_, show m.node < last by omega⟩
          rw [hroom, below_cons_of_lt (by omega)]
          exact Nat.succ_pos _
        rw [below_cons_of_le hs hout]

def extent (reference : List ℕ) (i : ℕ) : ℕ := i + reference.getD i 0

variable {reference : List ℕ}

lemma extent_eq {i s : ℕ} (h : reference[i]? = some s) : extent reference i = i + s := by
  rw [extent, List.getD_eq_getElem?_getD, h, Option.getD_some]

lemma lt_extent (h : WellFormed reference) {i : ℕ} (hi : i < reference.length) :
    i < extent reference i := by
  have hskip := List.getElem?_eq_getElem hi
  have hpos := h.pos hskip
  rw [extent_eq hskip]
  omega

lemma extent_le (h : WellFormed reference) {i : ℕ} (hi : i < reference.length) :
    extent reference i ≤ reference.length := by
  have hskip := List.getElem?_eq_getElem hi
  rw [extent_eq hskip]
  exact h.inside hskip

lemma laminar_extent (h : WellFormed reference) (hns : ∀ n ∈ ns, n.node < reference.length) :
    Laminar (extent reference) ns := by
  intro m hm n hn hlt hin
  have hm := List.getElem?_eq_getElem (hns m hm)
  have hn := List.getElem?_eq_getElem (hns n hn)
  rw [extent_eq hm] at hin ⊢
  rw [extent_eq hn]
  exact h.nested hm hn hlt hin

/-- The slots with a new one for a node, and which of them it is. -/
def addNote (reference : List ℕ) (node : ℕ) (v : α) (slots : List (Slot (Note α))) :
    ℕ × List (Slot (Note α)) :=
  let p := locate (extent reference) node slots.length 0 slots
  let skip := absorbed (extent reference node) p.room 0 p.after + 1
  (p.before.length, p.before ++ ⟨skip, ⟨node, v⟩⟩ :: p.after)

/-- When an insertion is refused, and what it does else. -/
lemma insert_eq (t : SparseTree cap α) (node : ℕ) (v : α) :
    t.insert reference node v =
      if reference.length ≤ node then .error (.missingReference node)
      else if node ∈ t.nodes then .error (.occupied node)
      else if t.len < cap then
        .ok ((addNote reference node v t.slots).1, ⟨(addNote reference node v t.slots).2⟩)
      else .error (.overflow cap) := by
  unfold insert
  by_cases href : reference.length ≤ node
  · rw [if_pos href, if_pos href]
    rfl
  rw [if_neg href, if_neg href]
  by_cases hnew : node ∈ t.nodes
  · rw [if_pos hnew]
    simp only [List.contains_eq_mem, hnew, decide_true, if_pos]
    rfl
  rw [if_neg hnew]
  by_cases hcap : t.len < cap
  · simp only [List.contains_eq_mem, hnew, decide_false, nextIndex_of_lt hcap, if_pos hcap]
    rfl
  · have hnext : nextIndex cap t.len = .error (.overflow cap) :=
      nextIndex_of_le (Nat.le_of_not_lt hcap)
    simp only [List.contains_eq_mem, hnew, decide_false, hnext, if_neg hcap]
    rfl

lemma exists_place (hs : Ordered ns) (hx : ∀ n ∈ ns, n.node ≠ x.node) :
    ∃ lo hi, ns = lo ++ hi ∧ (∀ l ∈ lo, l.node < x.node) ∧ ∀ h ∈ hi, x.node < h.node := by
  induction ns with
  | nil => exact ⟨[], [], rfl, by simp, by simp⟩
  | cons n ns ih =>
    have hne := hx n List.mem_cons_self
    rcases Nat.lt_or_gt_of_ne hne with hlt | hgt
    · obtain ⟨lo, hi, rfl, hlo, hhi⟩ := ih hs.of_cons fun m hm => hx m (List.mem_cons_of_mem n hm)
      refine ⟨n :: lo, hi, rfl, ?_, hhi⟩
      intro l hl
      rcases List.mem_cons.mp hl with rfl | hl
      · exact hlt
      · exact hlo l hl
    · refine ⟨[], n :: ns, rfl, by simp, ?_⟩
      intro h hh
      rcases List.mem_cons.mp hh with rfl | hh
      · exact hgt
      · exact Nat.lt_trans hgt (List.rel_of_pairwise_cons hs hh)

/-- **One insertion.** A new note goes where its node belongs, and the slots are again those of the
notes in order. -/
theorem addNote_overlay (href : WellFormed reference) (hs : Ordered (lo ++ hi))
    (hlo : ∀ l ∈ lo, l.node < x.node) (hhi : ∀ h ∈ hi, x.node < h.node)
    (hin : ∀ n ∈ lo ++ x :: hi, n.node < reference.length) :
    addNote reference x.node x.value (overlay (extent reference) (lo ++ hi)) =
      (lo.length, overlay (extent reference) (lo ++ x :: hi)) := by
  have hx : x.node < reference.length := hin x (by simp)
  have hlam := laminar_extent href hin
  -- at first everything is in reach: no node is past the end of the reference
  have hreach : (overlay (extent reference) (lo ++ hi)).length =
      below (lo ++ hi) reference.length := by
    rw [length_overlay]
    refine (below_eq_length fun n hn => hin n ?_).symm
    simp only [List.mem_append, List.mem_cons] at hn ⊢
    tauto
  obtain ⟨limit, hlimit, hlocate⟩ := locate_overlay hs hlo hhi hlam (lt_extent href hx)
    (extent_le href hx) hreach (Nat.zero_le x.node)
    (fun m _ hm => absurd hm (Nat.not_lt_zero m.node))
    (below_eq_zero fun m _ => Nat.zero_le m.node).symm
  have hclosed : Closed (extent reference) (extent reference x.node) hi := fun h hh =>
    hlam x (by simp) h (by simp [hh]) (hhi h hh)
  have habsorbed := absorbed_overlay (List.pairwise_append.mp hs).2.1 hclosed hlimit rfl
    (Nat.zero_le _) (below_eq_zero fun m _ => Nat.zero_le m.node).symm
  have hslots : (overlay (extent reference) (lo ++ x :: hi)).take lo.length ++
      ⟨below hi (extent reference x.node) + 1, x⟩ :: overlay (extent reference) hi =
        overlay (extent reference) (lo ++ x :: hi) := by
    have hdrop := @drop_overlay _ (extent reference) lo (x :: hi)
    rw [Nat.add_comm, ← overlay_cons, ← hdrop, List.take_append_drop]
  have hplace : ((overlay (extent reference) (lo ++ x :: hi)).take lo.length).length =
      lo.length := by
    simp
  simp only [addNote, hlocate, habsorbed, hplace, hslots]

end SparseTree

end Stylesheet
