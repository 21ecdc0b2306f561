import Stylesheet.Proofs.Nesting
import Stylesheet.Proofs.Refinement

/-!
Reading a text turn by turn always comes to an end, and to the same as feeding all its tokens at
once. In every turn the text gets shorter or a frame is closed, except where the first token of a
rule is handed back; then the list of rules is no longer on top, so that cannot happen twice in a
row. The invariant says what is left to come of the rest of the text, and it does not change.
Together with the simulation this makes reading, with its stack and its tokens handed back, plain
recursive descent.
-/

namespace Stylesheet

open Rose Level

namespace Machine

variable {m : Machine}

lemma push_stack {f : Frame} {kind : ComponentKind} {location : ℕ} {n : Machine}
    (h : m.push f kind location = .ok n) : n.stack = f :: m.stack := by
  rw [push] at h
  rcases hb : m.builder.startNode ⟨kind, location, 0⟩ with e | ⟨i, b⟩
  · rw [hb] at h; cases h
  · rw [hb] at h; cases h; rfl

lemma complete_handBack {list : ListKind} {below : List Frame}
    (hstack : m.stack = .ruleList list :: below) {t : Token} (hi : ¬ list.ignores t.kind)
    (ha : t.kind ≠ .atKeyword) (ts : List Token) :
    m.complete (t :: ts) =
      m.push (.qualifiedRule t) .qualifiedRule t.start >>= fun m => m.complete (t :: ts) := by
  rw [complete_cons, feed, hstack]
  simp only [if_neg hi, if_neg ha]
  rcases hn : m.push (.qualifiedRule t) .qualifiedRule t.start with e | n
  · rfl
  · have hfeed : n.feed t = n.preludeValue t := by
      rw [feed, push_stack hn]
    rw [ok_bind, ok_bind, complete_cons, hfeed]

end Machine

namespace Reader

/-- A reader of the source `s`. What is still to be read leads to the same result as everything. -/
structure Reads (s : Source) (list : ListKind) (r : Reader) : Prop where
  text : r.lexer.source.text = s.text
  meets : r.lexer.Meets s.lexErrors
  result : report r.findings (r.machine.complete r.lexer.source.material) = s.completed list

def IsOpen (s : Source) (list : ListKind) (r : Reader) : Prop :=
  ∃ ls, Proper list s.text ls ∧ r.machine = .ofLevels s.location ls

def IsDone (s : Source) (r : Reader) : Prop :=
  s.text.length ≤ r.lexer.source.location ∧
    ∃ tree : Rose Component, tree.size ≤ componentCapacity ∧
      r.machine = ⟨.ofTree componentCapacity tree, []⟩

def atList : List Frame → Bool
  | .ruleList _ :: _ => true
  | _ => false

/-- A bound on the turns that are still to come. -/
def turnsLeft (r : Reader) : ℕ :=
  4 * (r.lexer.source.text.length - r.lexer.source.location) + r.machine.stack.length +
    if r.lexer.source.location < r.lexer.source.text.length ∧ atList r.machine.stack then 2 else 0

variable {s : Source} {list : ListKind} {r : Reader}

/-- A turn fails for lack of room, and then so does the whole, or it keeps the invariant and
there are fewer turns to come. -/
def Advances (s : Source) (list : ListKind) (bound : ℕ) (x : Except Error Reader) : Prop :=
  x = .error (.tree (.overflow componentCapacity)) ∧
      s.completed list = .error (.overflow componentCapacity) ∨
    ∃ r, x = .ok r ∧ r.Reads s list ∧ (r.IsOpen s list ∨ r.IsDone s) ∧ r.turnsLeft < bound

/-! ### The end of the text -/

lemma complain_of_standsIn {f : Frame} (h : f.StandsIn r.lexer.source.text) :
    r.complain f = .ok f.unclosed?.toList := by
  cases f with
  | ruleList k => rfl
  | atRule t | qualifiedRule t | block t bracket attached | function t =>
    rw [complain, Frame.complaint]
    simp only [Source.tokenSpan_of_standsIn h]
    rfl

lemma turnsLeft_of_end (h : r.lexer.source.text.length ≤ r.lexer.source.location) :
    r.turnsLeft = r.machine.stack.length := by
  have hout : ¬ (r.lexer.source.location < r.lexer.source.text.length ∧
      atList r.machine.stack = true) := fun hlt => by omega
  rw [turnsLeft, if_neg hout]
  omega

lemma advances_atEnd (h : r.Reads s list) {l : Level} {ls : List Level}
    (hproper : Proper list s.text (l :: ls)) (hmachine : r.machine = .ofLevels s.location (l :: ls))
    (hend : r.lexer.source.text.length ≤ r.lexer.source.location) :
    Advances s list r.turnsLeft (r.atEnd l.frame) := by
  have hstack : r.machine.stack = l.frame :: ls.map Level.frame := by rw [hmachine]; rfl
  have hstands : l.frame.StandsIn r.lexer.source.text := by
    rw [h.text]
    exact hproper.stands _ (by simp)
  have hresult := h.result
  rw [Source.material_of_end hend, Machine.complete_closeFrame hstack hproper.nested.1] at hresult
  have hclose := @Machine.closeFrame_ofLevels s.location _ _ _ _ hproper
  rw [← hmachine] at hclose
  rw [atEnd, complain_of_standsIn hstands]
  have hkeep : ∀ n, r.machine.closeFrame l.frame = .ok n →
      Reads s list { r with machine := n, findings := r.findings ++ l.frame.unclosed?.toList } := by
    intro n hn
    refine ⟨h.text, h.meets, ?_⟩
    rw [hn, ok_bind, report_report] at hresult
    rw [← hresult, Source.material_of_end hend]
  have hleft : ∀ n fs, turnsLeft ⟨r.lexer, n, fs⟩ = n.stack.length := fun n fs =>
    turnsLeft_of_end hend
  rcases hclose with ⟨tree, hsize, hn⟩ | hn | ⟨ks, hn, hks, hlen⟩
  · refine .inr ⟨_, by rw [hn]; rfl, hkeep _ hn,
      .inr ⟨by rw [← h.text]; exact hend, tree, hsize, rfl⟩, ?_⟩
    rw [hleft, turnsLeft_of_end hend, hstack]
    exact Nat.succ_pos _
  · refine .inl ⟨by rw [hn]; rfl, ?_⟩
    rw [← hresult, hn]
    rfl
  · refine .inr ⟨_, by rw [hn]; rfl, hkeep _ hn, .inl ⟨ks, hks, rfl⟩, ?_⟩
    rw [hleft, turnsLeft_of_end hend, hstack, Machine.ofLevels_stack, List.length_map,
      List.length_cons, List.length_map]
    omega

/-! ### A token -/

lemma turnsLeft_le (r : Reader) :
    r.turnsLeft ≤ 4 * (r.lexer.source.text.length - r.lexer.source.location) +
      r.machine.stack.length + 2 := by
  rw [turnsLeft]
  split_ifs
  · exact Nat.le_refl _
  · omega

lemma advances_fed (h : r.Reads s list) {l : Level} {ls : List Level}
    (hmachine : r.machine = .ofLevels s.location (l :: ls))
    (hlt : r.lexer.source.location < r.lexer.source.text.length)
    (hkind : r.lexer.source.token.kind ≠ .comments)
    (hmoves : Machine.Moves s.location list s.text (ls.length + 2)
      (r.machine.feed r.lexer.source.token)) :
    Advances s list r.turnsLeft do
      let m ← (r.machine.feed r.lexer.source.token).mapError .tree
      return ⟨r.lexer.next.2, m, r.findings⟩ := by
  have hstop := Source.lt_token_stop hlt
  have hresult := h.result
  rw [Source.material_cons hlt hkind, Machine.complete_cons] at hresult
  rcases hmoves with hfeed | ⟨ks, hfeed, hks, hlen⟩
  · refine .inl ⟨by rw [hfeed]; rfl, ?_⟩
    rw [← hresult, hfeed]
    rfl
  · refine .inr ⟨⟨r.lexer.next.2, .ofLevels s.location ks, r.findings⟩, by rw [hfeed]; rfl, ?_,
      .inl ⟨ks, hks, rfl⟩, ?_⟩
    · rw [hfeed, ok_bind] at hresult
      exact ⟨h.text, Lexer.meets_next h.meets, hresult⟩
    · have hleft := turnsLeft_le ⟨r.lexer.next.2, .ofLevels s.location ks, r.findings⟩
      rw [Machine.ofLevels_stack, List.length_map] at hleft
      change _ ≤ 4 * (r.lexer.source.text.length - r.lexer.source.token.stop) + _ + _ at hleft
      have hnow : 4 * (r.lexer.source.text.length - r.lexer.source.location) + (ls.length + 1) ≤
          r.turnsLeft := by
        rw [turnsLeft, hmachine]
        simp only [Machine.ofLevels_stack, List.length_map, List.length_cons]
        omega
      omega

/-- A token that is handed back leaves the text as it was, but a rule on top. -/
lemma advances_handBack (h : r.Reads s list) {l : Level}
    (hproper : Proper list s.text [l]) (hmachine : r.machine = .ofLevels s.location [l])
    (hframe : l.frame = .ruleList list)
    (hlt : r.lexer.source.location < r.lexer.source.text.length)
    (hkind : r.lexer.source.token.kind ≠ .comments)
    (hi : ¬ list.ignores r.lexer.source.token.kind)
    (ha : r.lexer.source.token.kind ≠ .atKeyword) :
    Advances s list r.turnsLeft do
      let l ← (r.lexer.next.2.seek r.lexer.source.token.start).mapError .source
      let m ← (r.machine.push (.qualifiedRule r.lexer.source.token) .qualifiedRule
        r.lexer.source.token.start).mapError .tree
      return ⟨l, m, r.findings⟩ := by
  have hseek : r.lexer.next.2.seek r.lexer.source.token.start =
      .ok ⟨r.lexer.source, r.lexer.next.2.errors⟩ := by
    have hle : r.lexer.source.token.start ≤ r.lexer.source.text.length := Nat.le_of_lt hlt
    have hsource : r.lexer.next.2.source.seek r.lexer.source.token.start = .ok r.lexer.source :=
      if_pos hle
    rw [Lexer.seek, hsource]
    rfl
  have hstands : r.lexer.source.token.StandsIn s.text := by
    rw [← h.text]
    exact Source.token_standsIn hlt
  have hstack : r.machine.stack = [.ruleList list] := by
    rw [hmachine, Machine.ofLevels_stack, List.map_cons, hframe]
    rfl
  have hmoves : Machine.Moves s.location list s.text 2
      (r.machine.push (.qualifiedRule r.lexer.source.token) .qualifiedRule
        r.lexer.source.token.start) := by
    rw [hmachine]
    exact Machine.moves_push hproper rfl (by rw [List.map_cons, hframe]; rfl) hstands
  have hresult := h.result
  rw [Source.material_cons hlt hkind, Machine.complete_handBack hstack hi ha] at hresult
  rw [hseek]
  rcases hmoves with hpush | ⟨ks, hpush, hks, hlen⟩
  · refine .inl ⟨by rw [hpush]; rfl, ?_⟩
    rw [← hresult, hpush]
    rfl
  · refine .inr ⟨⟨⟨r.lexer.source, r.lexer.next.2.errors⟩, .ofLevels s.location ks, r.findings⟩,
      by rw [hpush]; rfl, ?_, .inl ⟨ks, hks, rfl⟩, ?_⟩
    · rw [hpush, ok_bind, ← Source.material_cons hlt hkind] at hresult
      exact ⟨h.text, Lexer.meets_back h.meets hlt, hresult⟩
    · have htop := Machine.push_stack hpush
      simp only [turnsLeft, htop, hstack, atList]
      simp [hlt]

lemma advances_take (h : r.Reads s list) {l : Level} {ls : List Level}
    (hproper : Proper list s.text (l :: ls)) (hmachine : r.machine = .ofLevels s.location (l :: ls))
    (hlt : r.lexer.source.location < r.lexer.source.text.length)
    (hkind : r.lexer.source.token.kind ≠ .comments) :
    Advances s list r.turnsLeft
      (Reader.take ⟨r.lexer.next.2, r.machine, r.findings⟩ l.frame r.lexer.source.token) := by
  have heof : r.lexer.source.token.kind ≠ .eof := Source.kind_ne_eof_iff.mpr hlt
  have hstands : r.lexer.source.token.StandsIn s.text := by
    rw [← h.text]
    exact Source.token_standsIn hlt
  have hon := hproper.nested.1
  rcases hframe : l.frame with k | o | o | ⟨o, bracket, attached⟩ | o
  case ruleList =>
    rw [hframe] at hon
    obtain ⟨rfl, hbelow⟩ := hon
    obtain rfl : ls = [] := List.map_eq_nil_iff.mp hbelow
    have hstack : r.machine.stack = [.ruleList k] := by
      rw [hmachine, Machine.ofLevels_stack, List.map_cons, hframe]
      rfl
    rw [take]
    by_cases hi : k.ignores r.lexer.source.token.kind
    · have hfeed : r.machine.feed r.lexer.source.token = .ok r.machine := by
        rw [Machine.feed, hstack]
        simp only [if_pos hi]
        rfl
      have hfed := advances_fed h hmachine hlt hkind
        (by rw [hfeed]; exact .inr ⟨[l], by rw [hmachine], hproper, by simp⟩)
      rw [hfeed] at hfed
      rw [if_pos hi]
      exact hfed
    · by_cases ha : r.lexer.source.token.kind = .atKeyword
      · have hfeed : r.machine.feed r.lexer.source.token =
            r.machine.push (.atRule r.lexer.source.token) .atRule r.lexer.source.token.start := by
          rw [Machine.feed, hstack]
          simp only [if_neg hi, if_pos ha]
        have hfed := advances_fed h hmachine hlt hkind (by
          rw [hfeed, hmachine]
          exact Machine.moves_push hproper rfl (by rw [List.map_cons, hframe]; rfl) hstands)
        rw [hfeed] at hfed
        rw [if_neg hi, if_pos ha]
        exact hfed
      · rw [if_neg hi, if_neg ha]
        exact advances_handBack h hproper hmachine hframe hlt hkind hi ha
  all_goals
    have hfed := advances_fed h hmachine hlt hkind (by
      rw [hmachine]
      exact Machine.moves_feed hproper (by simp [hframe]) ⟨heof, hkind⟩ hstands)
    exact hfed

/-- **One turn** of an open reader. -/
theorem advances_turn (h : r.Reads s list) (hopen : r.IsOpen s list) :
    Advances s list r.turnsLeft r.turn := by
  obtain ⟨ls, hproper, hmachine⟩ := hopen
  obtain ⟨l, ls, rfl⟩ := List.exists_cons_of_ne_nil hproper.some
  obtain ⟨k, hnext, hkind, htext, hlocation, hmaterial, herrors⟩ :=
    r.lexer.exists_nextMaterial
  have hstack : r.machine.stack = l.frame :: ls.map Level.frame := by rw [hmachine]; rfl
  -- behind the comments the reader is still the same reader
  have hreads : Reads s list ⟨k, r.machine, r.findings⟩ := by
    refine ⟨htext.trans h.text, ⟨?_, ?_⟩, ?_⟩
    · rw [herrors]; exact h.meets.once
    · rw [herrors]; exact h.meets.ordered
    · rw [hmaterial]; exact h.result
  have hturn : r.turn = if k.source.token.kind = .eof then
      Reader.atEnd ⟨k.next.2, r.machine, r.findings⟩ l.frame
    else Reader.take ⟨k.next.2, r.machine, r.findings⟩ l.frame k.source.token := by
    rw [turn, hstack, hnext]
    rfl
  have hleft : turnsLeft ⟨k, r.machine, r.findings⟩ ≤ r.turnsLeft := by
    simp only [turnsLeft, htext]
    split_ifs with hk hr
    · omega
    · exact absurd ⟨Nat.lt_of_le_of_lt hlocation hk.1, hk.2⟩ hr
    · omega
    · omega
  have hadvances : Advances s list (turnsLeft ⟨k, r.machine, r.findings⟩) r.turn := by
    rw [hturn]
    split_ifs with heof
    · have hend := Source.token_eof_iff.mp heof
      rw [Lexer.next_of_end hend]
      exact advances_atEnd hreads hproper hmachine hend
    · exact advances_take hreads hproper hmachine (Source.kind_ne_eof_iff.mp heof) hkind
  rcases hadvances with hfail | ⟨n, hn, hinv, hstate, hlt⟩
  · exact .inl hfail
  · exact .inr ⟨n, hn, hinv, hstate, Nat.lt_of_lt_of_le hlt hleft⟩

/-! ### All turns -/

lemma reads_start : ∃ r, start s list = .ok r ∧ r.Reads s list ∧ r.IsOpen s list ∧
    r.turnsLeft ≤ 4 * (s.text.length - s.location) + 3 := by
  refine ⟨⟨.ofSource s, .ofLevels s.location [⟨.ruleList list, []⟩], []⟩, ?_, ?_, ?_, ?_⟩
  · rw [start, Machine.start_eq_ofLevels]
    rfl
  · exact ⟨rfl, Lexer.meets_ofSource s, report_nil _⟩
  · exact ⟨[⟨.ruleList list, []⟩], Machine.proper_start list s.text, rfl⟩
  · exact turnsLeft_le _

/-- **All turns**: as long as there is room, the invariant holds after any number of turns, and
each of them was one turn less to come, until everything is closed. -/
theorem advances_after (s : Source) (list : ListKind) (n : ℕ) :
    after s list n = .error (.tree (.overflow componentCapacity)) ∧
        s.completed list = .error (.overflow componentCapacity) ∨
      ∃ r, after s list n = .ok r ∧ r.Reads s list ∧
        (r.IsOpen s list ∧ r.turnsLeft + n ≤ 4 * (s.text.length - s.location) + 3 ∨
          r.IsDone s) := by
  induction n with
  | zero =>
    obtain ⟨r, hr, hreads, hopen, hleft⟩ := @reads_start s list
    exact .inr ⟨r, hr, hreads, .inl ⟨hopen, hleft⟩⟩
  | succ n ih =>
    rw [after]
    rcases ih with ⟨hn, hfail⟩ | ⟨r, hn, hreads, ⟨hopen, hleft⟩ | hdone⟩
    · exact .inl ⟨by rw [hn]; rfl, hfail⟩
    · rw [hn, ok_bind]
      rcases advances_turn hreads hopen with hfail | ⟨r', hr', hreads', hopen' | hdone', hlt⟩
      · exact .inl hfail
      · exact .inr ⟨r', hr', hreads', .inl ⟨hopen', by omega⟩⟩
      · exact .inr ⟨r', hr', hreads', .inr hdone'⟩
    · -- when everything is closed a turn does nothing
      obtain ⟨hend, tree, hsize, hmachine⟩ := hdone
      have hturn : r.turn = .ok r := by
        rw [turn, hmachine]
        rfl
      rw [hn, ok_bind]
      exact .inr ⟨r, hturn, hreads, .inr ⟨hend, tree, hsize, hmachine⟩⟩

lemma finish_of_done (h : r.Reads s list) (hdone : r.IsDone s) :
    ∃ p, r.finish = .ok p ∧ s.parse list = .ok p := by
  obtain ⟨hend, tree, -, hmachine⟩ := hdone
  have hend' : r.lexer.source.text.length ≤ r.lexer.source.location := by rw [h.text]; exact hend
  have hresult : Except.ok (Builder.ofTree componentCapacity tree, r.findings ++ []) =
      s.completed list := by
    rw [← h.result, Source.material_of_end hend', hmachine]
    rfl
  rw [Source.completed_eq, reserve] at hresult
  split_ifs at hresult with hroom
  obtain ⟨hbuilder, hfindings⟩ := Prod.mk.inj (Except.ok.inj hresult)
  rw [List.append_nil] at hfindings
  have hlexical : s.lexErrors.mapM r.lexer.source.lexicalFinding =
      .ok (s.tokens.filterMap Token.finding?) := by
    refine Source.mapM_lexicalFinding fun t ht => ?_
    rw [h.text]
    exact Source.standsIn_of_mem_tokens ht
  have hbuilt : r.machine.builder.finish = .ok ⟨((s.sheet list).tree s.location).layout⟩ := by
    rw [hmachine, hbuilder]
    rfl
  refine ⟨⟨(s.sheet list).componentTree s.location, s.problems list⟩, ?_, ?_⟩
  · rw [finish, Lexer.errors_at_end h.meets hend', hlexical, hbuilt, hfindings, mapError_ok,
      ok_bind, mapError_ok, ok_bind, Source.ofTree_sheet, mapError_ok, ok_bind]
    rfl
  · rw [Source.parse_eq_reserve, reserve_of_le hroom]

/-- The slots that do not fit are more than the text can fill. -/
lemma lt_written_of_overflow
    (h : s.completed list = .error (.overflow componentCapacity)) :
    componentCapacity < 1 + (s.sheet list).written := by
  rw [Source.completed_eq, reserve] at h
  split_ifs at h with hroom
  exact Nat.lt_of_not_le hroom

lemma done_after (s : Source) (list : ListKind) {n : ℕ}
    (hn : 4 * (s.text.length - s.location) + 3 ≤ n) :
    after s list n = .error (.tree (.overflow componentCapacity)) ∧
        s.parse list = .error (.overflow componentCapacity) ∨
      ∃ r, after s list n = .ok r ∧ r.Reads s list ∧ r.IsDone s := by
  rcases advances_after s list n with
    ⟨hr, hfail⟩ | ⟨r, hr, hreads, ⟨⟨ls, hproper, hmachine⟩, hleft⟩ | hdone⟩
  · refine .inl ⟨hr, ?_⟩
    rw [Source.parse_eq_reserve, reserve, if_neg (Nat.not_le.mpr (lt_written_of_overflow hfail))]
  · -- an open frame would be one more turn to come
    obtain ⟨l, ls, rfl⟩ := List.exists_cons_of_ne_nil hproper.some
    have hopen : 1 ≤ r.turnsLeft := by
      rw [turnsLeft, hmachine, Machine.ofLevels_stack, List.map_cons, List.length_cons]
      omega
    omega
  · exact .inr ⟨r, hr, hreads, hdone⟩

lemma closed_after (s : Source) (list : ListKind) {n : ℕ}
    (hn : 4 * (s.text.length - s.location) + 3 ≤ n) :
    after s list n = .error (.tree (.overflow componentCapacity)) ∧
        s.parse list = .error (.overflow componentCapacity) ∨
      ∃ r, after s list n = .ok r ∧ r.machine.stack = [] ∧
        ∃ p, r.finish = .ok p ∧ s.parse list = .ok p := by
  rcases done_after s list hn with hfail | ⟨r, hr, hreads, hdone⟩
  · exact .inl hfail
  · have hstack : r.machine.stack = [] := by
      obtain ⟨-, tree, -, hmachine⟩ := hdone
      rw [hmachine]
    exact .inr ⟨r, hr, hstack, finish_of_done hreads hdone⟩

/-- **Reading is total**: at every turn the frames and the open nodes belong together, no turn
fails except for lack of slots in a text of almost as many characters, and after a number of
turns that the length of the text bounds everything is closed and the result is that of parsing. -/
theorem reading_is_total (s : Source) (list : ListKind) :
    (∀ n, match after s list n with
      | .ok r => r.machine.Sound s.location list
      | .error e => e = .tree (.overflow componentCapacity) ∧
          componentCapacity < s.text.length - s.location + 2) ∧
    ∀ n, match after s list (4 * (s.text.length - s.location) + 3 + n) with
      | .ok r => r.machine.stack = [] ∧ ∃ p, r.finish = .ok p ∧ s.parse list = .ok p
      | .error _ => s.parse list = .error (.overflow componentCapacity) := by
  refine ⟨fun n => ?_, fun n => ?_⟩
  · rcases advances_after s list n with
      ⟨hn, hfail⟩ | ⟨r, hn, -, ⟨⟨ls, hproper, hmachine⟩, -⟩ | hdone⟩
    · have hlt := lt_written_of_overflow hfail
      have hwritten := s.written_sheet_le list
      simp only [hn, true_and]
      omega
    · simp only [hn, hmachine]
      exact Machine.sound_ofLevels hproper
    · obtain ⟨-, tree, hsize, hmachine⟩ := hdone
      simp only [hn, hmachine]
      exact Machine.sound_ofTree hsize
  · rcases closed_after s list (Nat.le_add_right _ n) with ⟨hn, hfail⟩ | ⟨r, hn, hclosed⟩
    · simp only [hn]
      exact hfail
    · simp only [hn]
      exact hclosed

end Reader

namespace Source

/-- **Parsing is recursive descent**: reading turn by turn, with its stack and the tokens that it
hands back, comes to what parsing comes to; the flat tree is the preorder layout of the tree that
recursion over the tokens makes, the problems are those that recursion meets together with those
of single tokens, and nothing but a lack of slots for that tree stops it. -/
theorem parse_is_descent (s : Source) (list : ListKind) :
    Reader.read s list = (s.parse list).mapError .tree ∧
      match s.parse list with
      | .ok p =>
        p.tree.tree.slots = ((s.sheet list).tree s.location).layout ∧
          p.findings = s.problems list ∧
          (p.findings.filter Finding.isStructural).Perm (s.sheet list).findings
      | .error e =>
        e = .overflow componentCapacity ∧
          componentCapacity < 1 + (s.sheet list).written ∧
          componentCapacity < s.text.length - s.location + 2 := by
  refine ⟨?_, ?_⟩
  · rw [Reader.read]
    rcases Reader.closed_after s list (Nat.le_refl _) with ⟨hr, hfail⟩ | ⟨r, hr, -, p, hp, hparse⟩
    · rw [hr, hfail]
      rfl
    · rw [hr, hparse, ok_bind, hp]
      rfl
  · have hwritten := s.written_sheet_le list
    rw [parse_eq_reserve, reserve]
    split_ifs with hroom
    · exact ⟨rfl, rfl, structural_problems s list⟩
    · exact ⟨rfl, by omega, by omega⟩

end Source

end Stylesheet
