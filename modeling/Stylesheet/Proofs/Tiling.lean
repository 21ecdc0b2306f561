import Stylesheet.Proofs.Progress
import Stylesheet.Token.Lexer

/-!
Tokens lie end to end. A source behind its first token reads on exactly where that token
stopped, although code points and characters are counted differently; so reading token after
token is the same as cutting the whole text at once, and what was read so far is the text up to
where the source stands.
-/

namespace Stylesheet.Text

lemma decode_eq_nil_iff (t : List Char) : decode t = [] ↔ t = [] := by
  constructor
  · intro h
    have := width_decode t
    rw [h, width_nil] at this
    exact List.length_eq_zero_iff.mp this.symm
  · rintro rfl; rfl

lemma width_decode_pos {t : List Char} {p : CodePoint} (h : p ∈ decode t) : 0 < p.width := by
  fun_induction decode t with
  | case1 => simp at h
  | case2 r ih =>
    rcases List.mem_cons.mp h with rfl | h
    · simp
    · exact ih h
  | case3 c r _ ih =>
    rcases List.mem_cons.mp h with rfl | h
    · simp
    · exact ih h

lemma width_take_pos {t : List Char} (ht : t ≠ []) {k : ℕ} (hk : 0 < k) :
    0 < width ((decode t).take k) := by
  rcases hd : decode t with _ | ⟨p, ps⟩
  · exact absurd ((decode_eq_nil_iff t).mp hd) ht
  · have hp : 0 < p.width := width_decode_pos (t := t) (by simp [hd])
    obtain ⟨k, rfl⟩ := Nat.exists_eq_add_of_lt hk
    rw [Nat.zero_add, List.take_succ_cons, width_cons]; omega

lemma width_take_le (t : List Char) (k : ℕ) : width ((decode t).take k) ≤ t.length := by
  have h := width_append ((decode t).take k) ((decode t).drop k)
  rw [List.take_append_drop, width_decode] at h
  omega

lemma decode_drop_width (t : List Char) (k : ℕ) :
    decode (t.drop (width ((decode t).take k))) = (decode t).drop k := by
  fun_induction decode t generalizing k with
  | case1 => simp [decode]
  | case2 r ih =>
    cases k with
    | zero => simp [decode]
    | succ k =>
      rw [List.take_succ_cons, width_cons, Nat.add_comm, List.drop_succ_cons]
      exact ih k
  | case3 c r hc ih =>
    cases k with
    | zero =>
      rw [List.take_zero, width_nil, List.drop_zero, List.drop_zero, decode]
      exact hc
    | succ k =>
      rw [List.take_succ_cons, width_cons, Nat.add_comm, List.drop_succ_cons]
      exact ih k

lemma chars_drop (ps : List CodePoint) (k : ℕ) : chars (ps.drop k) = (chars ps).drop k := by
  simp [chars]

end Stylesheet.Text

namespace Stylesheet

open Stylesheet.Text

namespace Source

variable (s : Source)

def next : Source := { s with location := s.token.stop }

@[simp] lemma next_text : s.next.text = s.text := rfl
@[simp] lemma next_location : s.next.location = s.token.stop := rfl
@[simp] lemma token_start : s.token.start = s.location := rfl

lemma token_kind : s.token.kind = (lex s.rest).kind := rfl

lemma token_stop : s.token.stop = s.locationAfter (lex s.rest).size := rfl

variable {s}

lemma rest_eq_nil_iff : s.rest = [] ↔ s.text.length ≤ s.location := by
  rw [rest, chars, List.map_eq_nil_iff, ahead, decode_eq_nil_iff, List.drop_eq_nil_iff]

lemma locationAfter_le (h : s.location ≤ s.text.length) (k : ℕ) :
    s.locationAfter k ≤ s.text.length := by
  have hw := width_take_le (s.text.drop s.location) k
  rw [List.length_drop] at hw
  simp only [locationAfter, ahead]; omega

lemma token_stop_le (h : s.location ≤ s.text.length) : s.token.stop ≤ s.text.length :=
  locationAfter_le h _

lemma token_eof_iff : s.token.kind = .eof ↔ s.text.length ≤ s.location := by
  rw [token_kind, lex_kind_eof_iff, rest_eq_nil_iff]

lemma kind_ne_eof_iff : s.token.kind ≠ .eof ↔ s.location < s.text.length := by
  rw [Ne, token_eof_iff, Nat.not_le]

lemma token_stop_of_end (h : s.text.length ≤ s.location) : s.token.stop = s.location := by
  simp [token_stop, locationAfter, ahead, List.drop_eq_nil_of_le h, decode]

lemma next_of_end (h : s.text.length ≤ s.location) : s.next = s := by
  rw [next, token_stop_of_end h]

lemma lt_token_stop (h : s.location < s.text.length) : s.location < s.token.stop := by
  have hr : s.rest ≠ [] := fun hr => by rw [rest_eq_nil_iff] at hr; omega
  obtain ⟨c, r, hcr⟩ := List.exists_cons_of_ne_nil hr
  have hpos := (lex_takes c r).2.1
  have ht : s.text.drop s.location ≠ [] := by rw [Ne, List.drop_eq_nil_iff]; omega
  have hw := width_take_pos ht (k := (lex s.rest).size) (by rw [hcr]; exact hpos)
  rw [token_stop, locationAfter, ahead]; omega

lemma next_ahead : s.next.ahead = s.ahead.drop (lex s.rest).size := by
  rw [ahead, next_text, next_location, token_stop, locationAfter, ← List.drop_drop]
  exact decode_drop_width _ _

lemma next_rest : s.next.rest = s.rest.drop (lex s.rest).size := by
  rw [rest, next_ahead, chars_drop, ← rest]

/-- What holds at the end of the text, and wherever it holds behind the first token, holds. -/
lemma next_induction {P : Source → Prop} (atEnd : ∀ s, s.text.length ≤ s.location → P s)
    (step : ∀ s, s.location < s.text.length → P s.next → P s) (s : Source) : P s := by
  induction hn : s.text.length - s.location using Nat.strongRecOn generalizing s with
  | ind n ih =>
    rcases Nat.lt_or_ge s.location s.text.length with h | h
    · have := lt_token_stop h
      exact step s h (ih _ (by simp only [next_text, next_location]; omega) s.next rfl)
    · exact atEnd s h

lemma tokens_of_end (h : s.text.length ≤ s.location) : s.tokens = [] := by
  rw [tokens, rest_eq_nil_iff.mpr h]; rfl

lemma tokens_cons (h : s.location < s.text.length) : s.tokens = s.token :: s.next.tokens := by
  have hr : s.rest ≠ [] := fun hr => by rw [rest_eq_nil_iff] at hr; omega
  obtain ⟨c, r, hcr⟩ := List.exists_cons_of_ne_nil hr
  have hpos := (lex_takes c r).2.1
  have hdrop : r.drop ((lex (c :: r)).size - 1) = s.next.rest := by
    obtain ⟨m, hm⟩ := Nat.exists_eq_add_of_lt hpos
    rw [next_rest, hcr, hm, Nat.zero_add]; rfl
  have hlexemes : lexemes s.rest = lex s.rest :: lexemes s.next.rest := by
    rw [hcr, lexemes, units_cons Lexeme.size _ rfl, hdrop, ← lexemes]
  rw [tokens, hlexemes, placed, ← next_ahead]
  rfl

lemma slices_tokens (h : s.location ≤ s.text.length) :
    ∃ parts, (s.tokens.mapM fun t => s.slice t.start t.stop) = .ok parts ∧
      parts.flatten = s.text.drop s.location := by
  induction s using next_induction with
  | atEnd s hend =>
    refine ⟨[], ?_, ?_⟩
    · rw [tokens_of_end hend]; rfl
    · rw [List.drop_eq_nil_of_le hend]; rfl
  | step s hlt ih =>
    have hstop := token_stop_le h
    have hlt' := lt_token_stop hlt
    obtain ⟨parts, hparts, hflat⟩ := ih hstop
    have hslice : s.slice s.token.start s.token.stop =
        .ok ((s.text.drop s.location).take (s.token.stop - s.location)) := by
      rw [slice, token_start, if_pos ⟨by omega, hstop⟩]
    have hbehind : (s.next.tokens.mapM fun t => s.slice t.start t.stop) = .ok parts := hparts
    refine ⟨(s.text.drop s.location).take (s.token.stop - s.location) :: parts, ?_, ?_⟩
    · rw [tokens_cons hlt, List.mapM_cons, hslice, hbehind]
      rfl
    · rw [List.flatten_cons, hflat, next_text, next_location]
      conv_rhs => rw [← List.take_append_drop (s.token.stop - s.location) (s.text.drop s.location)]
      rw [List.drop_drop, Nat.add_sub_cancel' (by omega)]

lemma kind_ne_eof_of_mem_tokens {t : Token} (h : t ∈ s.tokens) : t.kind ≠ .eof := by
  induction s using next_induction with
  | atEnd s hend => simp [tokens_of_end hend] at h
  | step s hlt ih =>
    rw [tokens_cons hlt] at h
    rcases List.mem_cons.mp h with rfl | h
    · exact kind_ne_eof_iff.mpr hlt
    · exact ih h

lemma length_tokens_le (s : Source) : s.tokens.length ≤ s.text.length - s.location := by
  induction s using next_induction with
  | atEnd s hend => simp [tokens_of_end hend]
  | step s hlt ih =>
    have hlt' := lt_token_stop hlt
    rw [tokens_cons hlt, List.length_cons]
    simp only [next_text, next_location] at ih
    omega

end Source

namespace Lexer

variable (l : Lexer)

def after : ℕ → Lexer
  | 0 => l
  | n + 1 => (after n).next.2

def nth (n : ℕ) : Token := (l.after n).next.1

@[simp] lemma after_zero : l.after 0 = l := rfl

lemma after_succ_source (n : ℕ) : (l.after (n + 1)).source = (l.after n).source.next := rfl

lemma nth_eq_token (n : ℕ) : l.nth n = (l.after n).source.token := rfl

lemma after_succ (n : ℕ) : l.after (n + 1) = l.next.2.after n := by
  induction n with
  | zero => rfl
  | succ n ih => rw [after, ih]; rfl

lemma nth_succ (n : ℕ) : l.nth (n + 1) = l.next.2.nth n := by rw [nth, after_succ]; rfl

@[simp] lemma after_text (n : ℕ) : (l.after n).source.text = l.source.text := by
  induction n with
  | zero => rfl
  | succ n ih => rw [after_succ_source, Source.next_text, ih]

variable {l}

lemma after_location_le (h : l.source.location ≤ l.source.text.length) (n : ℕ) :
    (l.after n).source.location ≤ l.source.text.length := by
  induction n with
  | zero => exact h
  | succ n ih =>
    rw [after_succ_source, Source.next_location, ← l.after_text n]
    exact Source.token_stop_le (by rw [l.after_text n]; exact ih)

lemma nth_eof_iff (n : ℕ) :
    (l.nth n).kind = .eof ↔ l.source.text.length ≤ (l.nth n).start := by
  rw [nth_eq_token, Source.token_eof_iff, after_text]; rfl

lemma after_of_eof {n m : ℕ} (h : (l.nth n).kind = .eof) (hm : n ≤ m) :
    (l.after m).source = (l.after n).source := by
  induction hm with
  | refl => rfl
  | step _ ih =>
    have hend : (l.after n).source.text.length ≤ (l.after n).source.location := by
      rw [after_text]; exact (nth_eof_iff n).mp h
    rw [after_succ_source, ih, Source.next_of_end hend]

lemma range_map_nth (l : Lexer) :
    (List.range l.source.tokens.length).map l.nth = l.source.tokens := by
  induction hs : l.source using Source.next_induction generalizing l with
  | atEnd s hend => simp [Source.tokens_of_end hend]
  | step s hlt ih =>
    subst hs
    have hrest := ih l.next.2 rfl
    rw [Source.tokens_cons hlt, List.length_cons, List.range_succ_eq_map, List.map_cons,
      List.map_map, nth_eq_token, after_zero]
    refine congrArg (l.source.token :: ·) (Eq.trans ?_ hrest)
    exact List.map_congr_left fun n _ => l.nth_succ n

lemma nth_tokens_length_eof (l : Lexer) : (l.nth l.source.tokens.length).kind = .eof := by
  induction hs : l.source using Source.next_induction generalizing l with
  | atEnd s hend =>
    subst hs
    rw [Source.tokens_of_end hend, nth_eof_iff]
    exact hend
  | step s hlt ih =>
    subst hs
    rw [Source.tokens_cons hlt, List.length_cons, nth_succ]
    exact ih l.next.2 rfl

/-- The tokens of a lexer, read one after the other, tile its text from where it stands. -/
structure Tiles (l : Lexer) : Prop where
  first : (l.nth 0).start = l.source.location
  adjacent : ∀ n, (l.nth (n + 1)).start = (l.nth n).stop
  /-- The lexer itself moves along with its tokens, in the same text. -/
  stands : ∀ n, (l.after n).source = ⟨l.source.text, (l.nth n).start⟩
  progress : ∀ n, (l.nth n).kind ≠ .eof → (l.nth n).start < (l.nth n).stop
  eof_iff : ∀ n, (l.nth n).kind = .eof ↔ (l.nth n).start = l.source.text.length
  /-- At the end the lexer reads the end token for ever and does not move. -/
  stays : ∀ n, (l.nth n).kind = .eof → ∀ m ≥ n,
    (l.nth m).kind = .eof ∧ (l.after m).source = (l.after n).source
  /-- The end comes after the tokens of the source, and these are what is read before it. -/
  reaches : (l.nth l.source.tokens.length).kind = .eof ∧
    l.source.tokens.length ≤ l.source.text.length - l.source.location
  listed : (List.range l.source.tokens.length).map l.nth = l.source.tokens ∧
    ∀ t ∈ l.source.tokens, t.kind ≠ .eof
  /-- The parts of the text between the ends of the tokens are there, and make up the text. -/
  covers : ∃ parts, (l.source.tokens.mapM fun t => l.source.slice t.start t.stop) = .ok parts ∧
    parts.flatten = l.source.text.drop l.source.location
  /-- Wherever reading may stand on the way, at or inside a token, is a place in the text. -/
  inside : ∀ n k, ∃ s, l.source.seek ((l.after n).source.locationAfter k) = .ok s

/-- **Tokens tile the text**, from any place in it. -/
theorem reading_tiles (l : Lexer) (h : l.source.location ≤ l.source.text.length) : l.Tiles where
  first := rfl
  adjacent _ := rfl
  stands n := by rw [← l.after_text n]; rfl
  progress n hn := by
    rw [Ne, nth_eof_iff, Nat.not_le] at hn
    exact Source.lt_token_stop (by rw [after_text]; exact hn)
  eof_iff n := by
    have hle : (l.nth n).start ≤ l.source.text.length := after_location_le h n
    rw [nth_eof_iff]
    omega
  stays n hn m hm := by
    have hstill := after_of_eof hn hm
    refine ⟨?_, hstill⟩
    rw [nth_eq_token, hstill]
    exact hn
  reaches := ⟨nth_tokens_length_eof l, l.source.length_tokens_le⟩
  listed := ⟨range_map_nth l, fun _ => Source.kind_ne_eof_of_mem_tokens⟩
  covers := Source.slices_tokens h
  inside n k := by
    have hle := Source.locationAfter_le (s := (l.after n).source)
      (by rw [after_text]; exact after_location_le h n) k
    rw [after_text] at hle
    exact ⟨_, if_pos hle⟩

/-- A carriage return inside a bad string, a line feed that belongs to it, and a backslash at
the end. -/
theorem reading_tiles_bad_string :
    1 ≤ ['a', '"', 'b', '\r', '\n', '\\'].length ∧
      (Lexer.mk ⟨['a', '"', 'b', '\r', '\n', '\\'], 1⟩ []).Tiles :=
  ⟨by decide, reading_tiles _ (by decide)⟩

end Lexer

end Stylesheet
