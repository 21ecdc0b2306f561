import Mathlib.Logic.Relation
import Stylesheet.Proofs.Growth

/-!
Cursors on runs of siblings. A cursor goes to the next sibling or to the first child, and stays on
a run as long as it is not past its end. Seeking a node ahead takes such moves and is settled by
them: of all cursors they lead to, one stands on the node.
-/

namespace Stylesheet

variable {cap : ℕ} {skips : List ℕ}

def ParentOf (skips : List ℕ) (p i : ℕ) : Prop :=
  Above skips p i ∧ ∀ q, Above skips q i → q ≤ p

/-- Where the run of siblings ends in which the node `i` is. -/
inductive RunEnds (skips : List ℕ) (i : ℕ) : ℕ → Prop
  | inside {p s : ℕ} (parent : ParentOf skips p i) (skip : skips[p]? = some s) :
      RunEnds skips i (p + s)
  | outermost (root : ∀ q, ¬ Above skips q i) : RunEnds skips i skips.length

/-- The cursor stands on a node, and knows where the run of that node ends. -/
structure OnRun (skips : List ℕ) (c : Cursor) : Prop where
  node : c.index < skips.length
  stop : RunEnds skips c.index c.stop

/-- A move to the next sibling or the first child, if there is one. -/
def Move (cap : ℕ) (skips : List ℕ) (c d : Cursor) : Prop :=
  (c.nextSibling cap skips = .ok d ∨ c.firstChild cap skips = .ok d) ∧ d.isDone = false

/-! ### Runs -/

lemma ParentOf.unique {p q i : ℕ} (hp : ParentOf skips p i) (hq : ParentOf skips q i) : p = q :=
  Nat.le_antisymm (hq.2 p hp.1) (hp.2 q hq.1)

lemma RunEnds.unique {i e f : ℕ} (he : RunEnds skips i e) (hf : RunEnds skips i f) : e = f := by
  cases he with
  | inside hp hs =>
    cases hf with
    | inside hq hr =>
      obtain rfl := hp.unique hq
      rw [hs] at hr
      rw [Option.some.inj hr]
    | outermost hroot => exact absurd hp.1 (hroot _)
  | outermost hroot =>
    cases hf with
    | inside hq _ => exact absurd hq.1 (hroot _)
    | outermost _ => rfl

lemma RunEnds.congr {i j e : ℕ} (he : RunEnds skips i e)
    (h : ∀ q, Above skips q j ↔ Above skips q i) : RunEnds skips j e := by
  cases he with
  | inside hp hs => exact .inside ⟨(h _).mpr hp.1, fun q hq => hp.2 q ((h q).mp hq)⟩ hs
  | outermost hroot => exact .outermost fun q hq => hroot q ((h q).mp hq)

/-- The nodes above another one own its run. -/
lemma RunEnds.stop_le {i e q r : ℕ} (he : RunEnds skips i e) (hwell : WellFormed skips)
    (hr : skips[q]? = some r) (hlt : q < i) (hin : i < q + r) : e ≤ q + r := by
  cases he with
  | @inside p s hp hs =>
    rcases Nat.lt_or_eq_of_le (hp.2 q ⟨r, hr, hlt, hin⟩) with hless | rfl
    · obtain ⟨-, -, hpi, -⟩ := hp.1
      exact hwell.nested hr hs hless (by omega)
    · obtain rfl := Option.some.inj (hs.symm.trans hr)
      exact Nat.le_refl _
  | outermost hroot => exact absurd ⟨r, hr, hlt, hin⟩ (hroot q)

lemma RunEnds.le_length {i e : ℕ} (he : RunEnds skips i e) (hwell : WellFormed skips) :
    e ≤ skips.length := by
  cases he with
  | inside _ hs => exact hwell.inside hs
  | outermost _ => exact Nat.le_refl _

lemma RunEnds.subtree_le {i e s : ℕ} (he : RunEnds skips i e) (hwell : WellFormed skips)
    (hs : skips[i]? = some s) : i + s ≤ e := by
  cases he with
  | inside hp hr =>
    obtain ⟨t, ht, hlt, hin⟩ := hp.1
    obtain rfl := Option.some.inj (hr.symm.trans ht)
    exact hwell.nested hr hs hlt hin
  | outermost _ => exact hwell.inside hs

/-- What follows the subtree of a node in its run has the same ancestors. -/
lemma RunEnds.above_next {i e s : ℕ} (he : RunEnds skips i e) (hwell : WellFormed skips)
    (hs : skips[i]? = some s) (hnext : i + s < e) (q : ℕ) :
    Above skips q (i + s) ↔ Above skips q i := by
  constructor
  · rintro ⟨r, hr, hlt, hin⟩
    rcases Nat.lt_trichotomy q i with hless | rfl | hmore
    · exact ⟨r, hr, hless, by omega⟩
    · rw [Option.some.inj (hr.symm.trans hs)] at hin
      exact absurd hin (Nat.lt_irrefl _)
    · have hnested := hwell.nested hs hr hmore hlt
      omega
  · rintro ⟨r, hr, hlt, hin⟩
    have hstop := he.stop_le hwell hr hlt hin
    exact ⟨r, hr, by omega, by omega⟩

namespace OnRun

variable {c d : Cursor} {s : ℕ}

lemma unique (hc : OnRun skips c) (hd : OnRun skips d) (h : c.index = d.index) : c = d := by
  obtain ⟨i, e⟩ := c
  obtain ⟨j, f⟩ := d
  obtain rfl : i = j := h
  rw [Cursor.mk.injEq]
  exact ⟨rfl, hc.stop.unique hd.stop⟩

lemma exists_skip (h : OnRun skips c) : ∃ s, skips[c.index]? = some s :=
  ⟨_, List.getElem?_eq_getElem h.node⟩

/-- **A step down** leads to the run of the children. -/
lemma enter (hwell : WellFormed skips) (hs : skips[c.index]? = some s) (hchild : 1 < s) :
    OnRun skips ⟨c.index + 1, c.index + s⟩ := by
  have hinside := hwell.inside hs
  have habove : Above skips c.index (c.index + 1) := ⟨s, hs, by omega, by omega⟩
  refine ⟨by simp only; omega, .inside ⟨habove, ?_⟩ hs⟩
  rintro q ⟨-, -, hlt, -⟩
  exact Nat.le_of_lt_succ hlt

/-- **A step past the subtree** leads to the next node of the run. -/
lemma pass (h : OnRun skips c) (hwell : WellFormed skips) (hs : skips[c.index]? = some s)
    (hnext : c.index + s < c.stop) : OnRun skips ⟨c.index + s, c.stop⟩ :=
  ⟨Nat.lt_of_lt_of_le hnext (h.stop.le_length hwell),
    h.stop.congr (h.stop.above_next hwell hs hnext)⟩

end OnRun

/-! ### Moves -/

namespace Cursor

variable {c d : Cursor} {s target : ℕ}

lemma nextSibling_eq (hs : skips[c.index]? = some s) (hcap : c.index + s ≤ cap) :
    c.nextSibling cap skips = .ok ⟨c.index + s, c.stop⟩ := by
  rw [nextSibling, skipAt_of_getElem? hs]
  change (stored cap (c.index + s) >>= fun index => pure { c with index }) = _
  rw [stored_of_le hcap]
  rfl

lemma firstChild_eq (hpos : 0 < s) (hs : skips[c.index]? = some s) (hcap : c.index + s ≤ cap) :
    c.firstChild cap skips = .ok ⟨c.index + 1, c.index + s⟩ := by
  rw [firstChild, childrenOf, stored_of_le (by omega), skipAt_of_getElem? hs]
  change (stored cap (c.index + s) >>= fun stop => pure (Cursor.mk (c.index + 1) stop)) = _
  rw [stored_of_le hcap]
  rfl

lemma move_iff (h : OnRun skips c) (hwell : WellFormed skips) (hcap : c.stop ≤ cap)
    (hs : skips[c.index]? = some s) :
    Move cap skips c d ↔ (d = ⟨c.index + s, c.stop⟩ ∧ c.index + s < c.stop) ∨
      d = ⟨c.index + 1, c.index + s⟩ ∧ 1 < s := by
  have hle := h.stop.subtree_le hwell hs
  unfold Move
  rw [nextSibling_eq hs (by omega), firstChild_eq (hwell.pos hs) hs (by omega)]
  simp only [Except.ok.injEq]
  constructor
  · rintro ⟨rfl | rfl, hdone⟩
    · simp only [isDone, decide_eq_false_iff_not] at hdone
      exact .inl ⟨rfl, by omega⟩
    · simp only [isDone, decide_eq_false_iff_not] at hdone
      exact .inr ⟨rfl, by omega⟩
  · rintro (⟨rfl, hlt⟩ | ⟨rfl, hlt⟩)
    · exact ⟨.inl rfl, by simpa [isDone] using hlt⟩
    · exact ⟨.inr rfl, by simpa [isDone] using hlt⟩

/-- **A move** leads to a run inside the one it leaves. -/
lemma onRun_of_move (hwell : WellFormed skips) (h : OnRun skips c) (hcap : c.stop ≤ cap)
    (hmove : Move cap skips c d) : OnRun skips d ∧ d.stop ≤ c.stop := by
  obtain ⟨s, hs⟩ := h.exists_skip
  obtain ⟨rfl, hlt⟩ | ⟨rfl, hlt⟩ := (move_iff h hwell hcap hs).mp hmove
  · exact ⟨h.pass hwell hs hlt, Nat.le_refl _⟩
  · exact ⟨.enter hwell hs hlt, h.stop.subtree_le hwell hs⟩

/-- **Moves** keep the cursor on a run. -/
lemma onRun_of_moves (hwell : WellFormed skips) (h : OnRun skips c) (hcap : c.stop ≤ cap)
    (hmoves : Relation.ReflTransGen (Move cap skips) c d) : OnRun skips d ∧ d.stop ≤ c.stop := by
  induction hmoves with
  | refl => exact ⟨h, Nat.le_refl _⟩
  | tail _ hmove ih =>
    obtain ⟨hrun, hstop⟩ := ih
    obtain ⟨hrun', hstop'⟩ := onRun_of_move hwell hrun (Nat.le_trans hstop hcap) hmove
    exact ⟨hrun', Nat.le_trans hstop' hstop⟩

/-- **The loop** makes moves until it is at its target, which it never jumps over. -/
lemma descend_moves (hwell : WellFormed skips) (h : OnRun skips c) (hcap : c.stop ≤ cap)
    (hle : c.index ≤ target) (hlt : target < c.stop) :
    ∃ d, descend skips target c = .ok d ∧ d.index = target ∧
      Relation.ReflTransGen (Move cap skips) c d := by
  fun_induction descend skips target c with
  | case1 c _ hnone =>
    obtain ⟨s, hs⟩ := h.exists_skip
    rw [hs] at hnone
    cases hnone
  | case2 c _ hzero => exact absurd (hwell.pos hzero) (Nat.lt_irrefl 0)
  | case3 c hindex s hs hin ih =>
    -- the subtree of this node holds the target
    have hmove : Move cap skips c ⟨c.index + 1, c.index + s + 1⟩ :=
      (move_iff h hwell hcap hs).mpr (.inr ⟨rfl, by omega⟩)
    obtain ⟨hrun, hstop⟩ := onRun_of_move hwell h hcap hmove
    obtain ⟨d, hd, htarget, hmoves⟩ :=
      ih hrun (Nat.le_trans hstop hcap) hindex (Nat.lt_succ_of_le hin)
    exact ⟨d, hd, htarget, .head hmove hmoves⟩
  | case4 c hindex s hs hout ih =>
    have hmove : Move cap skips c ⟨c.index + s + 1, c.stop⟩ :=
      (move_iff h hwell hcap hs).mpr (.inl ⟨rfl, by omega⟩)
    obtain ⟨hrun, hstop⟩ := onRun_of_move hwell h hcap hmove
    obtain ⟨d, hd, htarget, hmoves⟩ := ih hrun hcap (Nat.lt_of_not_le hout) hlt
    exact ⟨d, hd, htarget, .head hmove hmoves⟩
  | case5 c hindex => exact ⟨c, rfl, Nat.le_antisymm hle (Nat.le_of_not_lt hindex), .refl⟩

lemma seekNode_moves (hwell : WellFormed skips) (h : OnRun skips c) (hcap : c.stop ≤ cap)
    (hle : c.index ≤ target) (hlt : target < c.stop) :
    ∃ d, c.seekNode cap skips target = .ok d ∧ d.index = target ∧
      Relation.ReflTransGen (Move cap skips) c d := by
  obtain ⟨d, hd, htarget, hmoves⟩ := descend_moves hwell h hcap hle hlt
  have hstop := (onRun_of_moves hwell h hcap hmoves).2
  refine ⟨d, ?_, htarget, hmoves⟩
  rw [seekNode, if_pos ⟨hle, hlt⟩, hd]
  change (stored cap d.index >>= fun index => stored cap d.stop >>= fun stop =>
    pure (Cursor.mk index stop)) = _
  rw [stored_of_le (by omega), stored_of_le (by omega)]
  rfl

/-- **Seeking is moving step by step.** From a run of siblings, whose end can be counted, every node
ahead is found, with the end of its own run; that is the only cursor on it that moves to the next
sibling and to the first child lead to. Stopping at it on the way to a later node makes no
difference. -/
theorem seekNode_is_stepwise (hwell : WellFormed skips) (h : OnRun skips c) (hcap : c.stop ≤ cap)
    (hle : c.index ≤ target) (hlt : target < c.stop) :
    ∃ d, c.seekNode cap skips target = .ok d ∧ d.index = target ∧ RunEnds skips target d.stop ∧
      ((∀ q, Above skips q target ↔ Above skips q c.index) → d.stop = c.stop) ∧
      (∀ e, Relation.ReflTransGen (Move cap skips) c e ∧ e.index = target ↔ e = d) ∧
      ∀ later, target ≤ later → later < d.stop →
        d.seekNode cap skips later = c.seekNode cap skips later := by
  obtain ⟨d, hd, rfl, hmoves⟩ := seekNode_moves hwell h hcap hle hlt
  obtain ⟨hrun, hstop⟩ := onRun_of_moves hwell h hcap hmoves
  refine ⟨d, hd, rfl, hrun.stop, ?_, ?_, ?_⟩
  · intro hsame
    exact hrun.stop.unique (h.stop.congr hsame)
  · refine fun e => ⟨?_, ?_⟩
    · rintro ⟨he, hindex⟩
      exact (onRun_of_moves hwell h hcap he).1.unique hrun hindex
    · rintro rfl
      exact ⟨hmoves, rfl⟩
  · -- both ways are moves from `c`, and they end on one node
    intro later hlater hbefore
    obtain ⟨e, he, hindex, hthen⟩ :=
      seekNode_moves hwell hrun (Nat.le_trans hstop hcap) hlater hbefore
    obtain ⟨f, hf, hindex', hdirect⟩ :=
      seekNode_moves hwell h hcap (Nat.le_trans hle hlater) (Nat.lt_of_lt_of_le hbefore hstop)
    have hon := (onRun_of_moves hwell h hcap (hmoves.trans hthen)).1
    have hon' := (onRun_of_moves hwell h hcap hdirect).1
    rw [he, hf, hon.unique hon' (hindex.trans hindex'.symm)]

/-- From the root's first child the cursor goes two levels down, into a run of two leaves, and stops
at the first of them on the way to the second. -/
theorem seekNode_is_stepwise_two_down :
    WellFormed [9, 6, 3, 1, 1, 2, 1, 2, 1] ∧ OnRun [9, 6, 3, 1, 1, 2, 1, 2, 1] ⟨1, 9⟩ ∧
      RunEnds [9, 6, 3, 1, 1, 2, 1, 2, 1] 3 5 ∧
      seekNode 9 [9, 6, 3, 1, 1, 2, 1, 2, 1] 3 ⟨1, 9⟩ = .ok ⟨3, 5⟩ ∧
      Relation.ReflTransGen (Move 9 [9, 6, 3, 1, 1, 2, 1, 2, 1]) ⟨1, 9⟩ ⟨3, 5⟩ ∧
      seekNode 9 [9, 6, 3, 1, 1, 2, 1, 2, 1] 4 ⟨3, 5⟩ =
        seekNode 9 [9, 6, 3, 1, 1, 2, 1, 2, 1] 4 ⟨1, 9⟩ := by
  have hwell : WellFormed [9, 6, 3, 1, 1, 2, 1, 2, 1] :=
    Rose.wellFormed_layouts [.node () [.node () [.node () [.node () [], .node () []],
      .node () [.node () []]], .node () [.node () []]]]
  have hrun : OnRun [9, 6, 3, 1, 1, 2, 1, 2, 1] ⟨1, 9⟩ :=
    OnRun.enter (c := ⟨0, 9⟩) hwell rfl (by decide)
  obtain ⟨d, hd, hindex, hends, -, hmoves, hlater⟩ := @seekNode_is_stepwise 9 _ _ 3 hwell hrun
    (by decide) (by decide) (by decide)
  have hseek : seekNode 9 [9, 6, 3, 1, 1, 2, 1, 2, 1] 3 ⟨1, 9⟩ = .ok ⟨3, 5⟩ := by cbv
  obtain rfl : (⟨3, 5⟩ : Cursor) = d := Except.ok.inj (hseek.symm.trans hd)
  exact ⟨hwell, hrun, hends, hseek, ((hmoves _).mpr rfl).1, hlater 4 (by decide) (by decide)⟩

end Cursor

end Stylesheet
