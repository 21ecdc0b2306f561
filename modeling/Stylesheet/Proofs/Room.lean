import Stylesheet.Proofs.Newlines

/-!
How many slots are taken while a text is read. Every component but a qualified rule has a token of
its own, which pays for its slot. A qualified rule opens without one, but the brace that closes its
block is a token without a slot. So never more than one slot is owed, and a text needs at most two
slots more than it has characters: that one and the slot of the list of rules.
-/

namespace Stylesheet

namespace Builder

variable {cap : ℕ} {α : Type} {b c : Builder cap α} {i : ℕ}

lemma len_leaf {v : α} (h : b.leaf v = .ok (i, c)) : c.len = b.len + 1 := by
  unfold leaf at h
  split_ifs at h
  obtain ⟨j, -, h⟩ := exists_of_bind_eq_ok h
  cases h
  unfold len
  rw [List.length_append]
  rfl

lemma len_startNode {v : α} (h : b.startNode v = .ok (i, c)) : c.len = b.len + 1 := by
  obtain ⟨⟨j, d⟩, hleaf, h⟩ := exists_of_bind_eq_ok h
  cases h
  exact len_leaf (c := d) hleaf

lemma len_finishNode (h : b.finishNode = .ok (i, c)) : c.len = b.len := by
  unfold finishNode at h
  split at h
  · cases h
  · cases h
    exact List.length_modify _ _ _

lemma len_abandonNode (h : b.abandonNode = .ok c) : c.len ≤ b.len := by
  unfold abandonNode at h
  split at h
  · cases h
  · cases h
    exact List.length_take_le' _ _

lemma len_modifyValue {f : α → α} (h : b.modifyValue i f = .ok c) : c.len = b.len := by
  unfold modifyValue at h
  split_ifs at h
  cases h
  exact List.length_modify _ _ _

end Builder

def Frame.isQualifiedRule : Frame → Bool
  | .qualifiedRule _ => true
  | _ => false

namespace Machine

variable {m n : Machine} {t : Token}

/-- The slots that are written, and one that is set aside for the next qualified rule as long as
none is open. -/
def claimed (m : Machine) : ℕ :=
  m.builder.len + if m.stack.any Frame.isQualifiedRule then 0 else 1

lemma len_le_claimed (m : Machine) : m.builder.len ≤ m.claimed := Nat.le_add_right _ _

lemma claimed_le (m : Machine) : m.claimed ≤ m.builder.len + 1 := by
  unfold claimed
  split_ifs <;> omega

lemma claimed_of_len_le (h : n.builder.len ≤ m.builder.len) : n.claimed ≤ m.claimed + 1 := by
  have hn := n.claimed_le
  have hm := m.len_le_claimed
  omega

/-! ### Moves -/

section push

variable {f : Frame} {kind : ComponentKind} {location : ℕ}

lemma len_push (h : m.push f kind location = .ok n) : n.builder.len = m.builder.len + 1 := by
  obtain ⟨⟨i, b⟩, hstart, h⟩ := exists_of_bind_eq_ok h
  cases h
  exact Builder.len_startNode hstart

lemma claimed_push (h : m.push f kind location = .ok n) : n.claimed ≤ m.claimed + 1 := by
  unfold claimed
  rw [len_push h, push_stack h, List.any_cons]
  rcases f.isQualifiedRule <;> rcases m.stack.any Frame.isQualifiedRule <;> simp

lemma claimed_push_rule (h : m.push (.qualifiedRule t) kind location = .ok n)
    (hnone : m.stack.any Frame.isQualifiedRule = false) : n.claimed = m.claimed := by
  unfold claimed
  rw [len_push h, push_stack h, hnone]
  rfl

end push

lemma len_pop (h : m.pop = .ok n) : n.builder.len = m.builder.len := by
  obtain ⟨⟨i, b⟩, hfinish, h⟩ := exists_of_bind_eq_ok h
  cases h
  exact Builder.len_finishNode hfinish

lemma len_closeBlock {b c : ComponentBuilder} {attached : Bool}
    (h : closeBlock b attached = .ok c) : c.len = b.len := by
  obtain ⟨⟨i, d⟩, hblock, h⟩ := exists_of_bind_eq_ok h
  have hlen := Builder.len_finishNode hblock
  cases attached with
  | false =>
    cases h
    exact hlen
  | true =>
    obtain ⟨⟨j, e⟩, hrule, h⟩ := exists_of_bind_eq_ok h
    calc c.len = e.len := Builder.len_modifyValue h
      _ = d.len := Builder.len_finishNode hrule
      _ = b.len := hlen

lemma len_popBlock {attached : Bool} (h : m.popBlock attached = .ok n) :
    n.builder.len = m.builder.len := by
  obtain ⟨b, hclose, h⟩ := exists_of_bind_eq_ok h
  cases h
  exact len_closeBlock hclose

lemma claimed_value (h : m.value t = .ok n) : n.claimed ≤ m.claimed + 1 := by
  unfold value at h
  split at h
  · exact claimed_push h
  · split_ifs at h
    · exact claimed_push h
    · split at h
      · obtain ⟨⟨i, b⟩, hleaf, h⟩ := exists_of_bind_eq_ok h
        cases h
        have hlen := Builder.len_leaf hleaf
        unfold claimed
        simp only [hlen]
        omega
      · cases h

lemma claimed_preludeValue (h : m.preludeValue t = .ok n) : n.claimed ≤ m.claimed + 1 := by
  unfold preludeValue at h
  split_ifs at h
  · exact claimed_push h
  · exact claimed_value h

/-- **One token** in a rule, a block or a function claims at most one slot. -/
lemma claimed_feed {f : Frame} {below : List Frame} (hstack : m.stack = f :: below)
    (hf : ∀ list, f ≠ .ruleList list) (h : m.feed t = .ok n) : n.claimed ≤ m.claimed + 1 := by
  unfold feed at h
  rw [hstack] at h
  cases f with
  | ruleList list => exact absurd rfl (hf list)
  | atRule o =>
    simp only at h
    split_ifs at h
    · exact claimed_of_len_le (len_pop h).le
    · exact claimed_preludeValue h
  | qualifiedRule o => exact claimed_preludeValue h
  | block o bracket attached =>
    simp only at h
    split_ifs at h
    · exact claimed_of_len_le (len_popBlock h).le
    · exact claimed_value h
  | function o =>
    simp only at h
    split_ifs at h
    · exact claimed_of_len_le (len_pop h).le
    · exact claimed_value h

lemma len_closeFrame {f : Frame} (h : m.closeFrame f = .ok n) :
    n.builder.len ≤ m.builder.len := by
  cases f with
  | ruleList list | atRule o | function o => exact (len_pop h).le
  | qualifiedRule o =>
    obtain ⟨b, habandon, h⟩ := exists_of_bind_eq_ok h
    cases h
    exact Builder.len_abandonNode habandon
  | block o bracket attached => exact (len_popBlock h).le

end Machine

namespace Reader

variable {s : Source} {list : ListKind} {r r' : Reader} {bound : ℕ}

def left (r : Reader) : ℕ := r.lexer.source.text.length - r.lexer.source.location

/-- The slots that are written and the characters that may still need one come to no more than the
bound; neither do the slots that are claimed, as long as there are such characters. -/
structure Within (bound : ℕ) (r : Reader) : Prop where
  written : r.machine.builder.len + r.left ≤ bound
  claimed : 0 < r.left → r.machine.claimed + r.left ≤ bound

/-- A token pays for what is claimed when it is read. -/
lemma Within.paid (h : r.Within bound) (hleft : r'.left < r.left)
    (hclaimed : r'.machine.claimed ≤ r.machine.claimed + 1) : r'.Within bound := by
  have hle := h.claimed (Nat.zero_lt_of_lt hleft)
  have hlen := r'.machine.len_le_claimed
  exact ⟨by omega, fun _ => by omega⟩

lemma Within.mono (h : r.Within bound) (hleft : r'.left ≤ r.left)
    (hmachine : r'.machine = r.machine) : r'.Within bound := by
  have hwritten := h.written
  rw [← hmachine] at hwritten
  refine ⟨by omega, fun hsome => ?_⟩
  have hclaimed := h.claimed (Nat.lt_of_lt_of_le hsome hleft)
  rw [← hmachine] at hclaimed
  omega

lemma within_atEnd (h : r.Within bound) (hleft : r.left = 0) {frame : Frame}
    (hend : r.atEnd frame = .ok r') : r'.Within bound := by
  obtain ⟨found, -, hend⟩ := exists_of_bind_eq_ok hend
  obtain ⟨m, hclose, hend⟩ := exists_of_bind_eq_ok hend
  cases hend
  have hlen := Machine.len_closeFrame (ok_of_mapError hclose)
  have hwritten := h.written
  exact ⟨Nat.le_trans (Nat.add_le_add_right hlen _) hwritten, fun hsome => absurd hleft hsome.ne'⟩

/-- A token is used up, unless it starts a qualified rule. Then a slot is set aside for the rule. -/
lemma within_take {k : Lexer} {m : Machine} {fs : List Finding} (h : (Reader.mk k m fs).Within bound)
    (hlt : k.source.location < k.source.text.length) {frame : Frame} {below : List Frame}
    (hstack : m.stack = frame :: below) (hnested : Frame.Nested list m.stack)
    (htake : (Reader.mk k.next.2 m fs).take frame k.next.1 = .ok r') : r'.Within bound := by
  have hstop := Source.lt_token_stop hlt
  have hless : k.source.text.length - k.source.next.location <
      k.source.text.length - k.source.location := by
    rw [Source.next_location]
    omega
  have hpaid {n : Machine} (hn : n.claimed ≤ m.claimed + 1) :
      (Reader.mk k.next.2 n fs).Within bound := h.paid hless hn
  unfold take at htake
  split at htake
  · next l =>
    split_ifs at htake
    · cases htake
      exact hpaid (Nat.le_succ _)
    · obtain ⟨n, hn, htake⟩ := exists_of_bind_eq_ok htake
      cases htake
      exact hpaid (Machine.claimed_push (ok_of_mapError hn))
    · obtain ⟨j, hj, htake⟩ := exists_of_bind_eq_ok htake
      obtain ⟨n, hn, htake⟩ := exists_of_bind_eq_ok htake
      cases htake
      rw [hstack] at hnested
      obtain ⟨-, rfl⟩ := hnested.1
      have hnone : m.stack.any Frame.isQualifiedRule = false := by rw [hstack]; rfl
      have hclaimed := Machine.claimed_push_rule (ok_of_mapError hn) hnone
      have hback := Lexer.source_of_seek hj
      have hleft : (Reader.mk j n fs).left = (Reader.mk k m fs).left := by
        unfold left
        rw [hback]
        rfl
      have hsum := h.claimed (Nat.sub_pos_of_lt hlt)
      rw [← hleft, ← hclaimed] at hsum
      exact ⟨Nat.le_trans (Nat.add_le_add_right n.len_le_claimed _) hsum, fun _ => hsum⟩
  · next hvalues =>
    obtain ⟨n, hn, htake⟩ := exists_of_bind_eq_ok htake
    cases htake
    exact hpaid (Machine.claimed_feed hstack hvalues (ok_of_mapError hn))

/-- **A turn** keeps what is written and what is left within the bound. -/
lemma within_turn (h : r.Within bound) (hnested : Frame.Nested list r.machine.stack)
    (hturn : r.turn = .ok r') : r'.Within bound := by
  obtain ⟨k, hnext, -, htext, hlocation, -, -⟩ := r.lexer.exists_nextMaterial
  unfold turn at hturn
  split at hturn
  · cases hturn
    exact h
  · next frame below hstack =>
    rw [hnext] at hturn
    dsimp only at hturn
    have hk : (Reader.mk k r.machine r.findings).Within bound := by
      refine h.mono ?_ rfl
      unfold left
      simp only [htext]
      omega
    split_ifs at hturn with heof
    · have hend := Source.token_eof_iff.mp heof
      rw [Lexer.next_of_end hend] at hturn
      exact within_atEnd hk (Nat.sub_eq_zero_of_le hend) hturn
    · exact within_take hk (Source.kind_ne_eof_iff.mp heof) hstack hnested hturn

lemma nested_after {n : ℕ} (h : after s list n = .ok r) : Frame.Nested list r.machine.stack := by
  rcases advances_after s list n with ⟨hn, -⟩ | ⟨r₀, hn, -, ⟨⟨ls, hproper, hmachine⟩, -⟩ | hdone⟩
  · rw [hn] at h
    cases h
  · obtain rfl : r₀ = r := Except.ok.inj (hn.symm.trans h)
    rw [hmachine]
    exact hproper.nested
  · obtain rfl : r₀ = r := Except.ok.inj (hn.symm.trans h)
    obtain ⟨-, tree, -, hmachine⟩ := hdone
    rw [hmachine]
    trivial

/-- **All turns** do, and at the start there are two slots more than characters. -/
theorem within_after {n : ℕ} (h : after s list n = .ok r) :
    r.Within (s.text.length - s.location + 2) := by
  induction n generalizing r with
  | zero =>
    obtain ⟨m, hm, h⟩ := exists_of_bind_eq_ok h
    cases h
    have hstart := ok_of_mapError hm
    have hlen : m.builder.len = 1 := Machine.len_push hstart
    have hclaimed : m.claimed + (s.text.length - s.location) ≤ s.text.length - s.location + 2 := by
      have hle := m.claimed_le
      omega
    exact ⟨Nat.le_trans (Nat.add_le_add_right m.len_le_claimed _) hclaimed, fun _ => hclaimed⟩
  | succ n ih =>
    obtain ⟨r₀, hbefore, h⟩ := exists_of_bind_eq_ok h
    exact within_turn (ih hbefore) (nested_after hbefore) h

end Reader

namespace Source

/-- **A text needs two slots more than it has characters**, and no more: at every turn of reading
it, at most these are written, so that nothing fails for lack of room in a text that leaves two of
them spare, and the tree has no more. -/
theorem slots_bounded_by_text (s : Source) (list : ListKind) :
    (∀ n, match Reader.after s list n with
      | .ok r => r.machine.builder.len ≤ s.text.length - s.location + 2
      | .error e => e = .tree (.overflow componentCapacity) ∧
          componentCapacity < s.text.length - s.location + 2) ∧
    (s.text.length + 2 ≤ componentCapacity →
      ∃ p, Reader.read s list = .ok p ∧ s.parse list = .ok p) ∧
    ∀ p, s.parse list = .ok p → p.tree.size ≤ s.text.length - s.location + 2 := by
  refine ⟨fun n => ?_, fun hroom => ?_, fun p hp => ?_⟩
  · rcases hn : Reader.after s list n with e | r
    · rcases Reader.advances_after s list n with ⟨herror, hfail⟩ | ⟨r, hr, -⟩
      · have hlt := Reader.lt_written_of_overflow hfail
        have hwritten := s.written_sheet_le list
        rw [herror] at hn
        cases hn
        exact ⟨rfl, by omega⟩
      · rw [hr] at hn
        cases hn
    · exact Nat.le_trans (Nat.le_add_right _ _) (Reader.within_after hn).written
  · rw [read_eq_parse]
    rcases hp : s.parse list with e | p
    · have hlt := (overflow_of_parse hp).2
      omega
    · exact ⟨p, rfl, rfl⟩
  · obtain ⟨-, rfl⟩ := parse_eq_ok_iff.mp hp
    have hwritten := s.written_sheet_le list
    have hsize : ((s.sheet list).componentTree s.location).size =
        1 + Rose.sizes (s.sheet list).rules := rfl
    unfold Sheet.written at hwritten
    rw [hsize]
    omega

/-- One brace, with a qualified rule around its block and the list of rules around that. -/
theorem slots_bounded_by_text_brace :
    ∃ p, Reader.read ⟨['a', '\x7b'], 1⟩ .topLevel = .ok p ∧ p.tree.size ≤ 3 := by
  obtain ⟨-, hreads, hsize⟩ := slots_bounded_by_text ⟨['a', '\x7b'], 1⟩ .topLevel
  obtain ⟨p, hread, hparse⟩ := hreads (by decide)
  exact ⟨p, hread, hsize p hparse⟩

end Source

end Stylesheet
