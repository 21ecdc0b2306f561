import Stylesheet.Proofs.Seam
import Stylesheet.Proofs.Tiling
import Stylesheet.Token.Value

/-!
A text with another end. Where a token of a text starts, what follows may be exchanged for nothing
or for something that starts with a slash; the tokens before that place stay what they are, unless
one of them depends on what follows there.
-/

namespace Stylesheet.Text

lemma decode_cons {c : Char} {r : List Char} (h : c = '\r' → r.head? ≠ some '\n') :
    decode (c :: r) = ⟨normalize c, 1⟩ :: decode r := by
  rw [decode]
  rintro t rfl rfl
  exact h rfl rfl

lemma decode_take_width (t : List Char) (k : ℕ) :
    decode (t.take (width ((decode t).take k))) = (decode t).take k := by
  fun_induction decode t generalizing k with
  | case1 => simp [decode]
  | case2 r ih =>
    cases k with
    | zero => simp [decode]
    | succ k =>
      have htake : ('\r' :: '\n' :: r).take (2 + width ((decode r).take k)) =
          '\r' :: '\n' :: r.take (width ((decode r).take k)) := by
        rw [Nat.add_comm]
        rfl
      rw [List.take_succ_cons, width_cons, htake, decode, ih]
  | case3 c r hc ih =>
    cases k with
    | zero => simp [decode]
    | succ k =>
      rw [List.take_succ_cons, width_cons, Nat.add_comm, List.take_succ_cons, decode_cons, ih]
      intro hreturn hline
      rcases r with _ | ⟨d, r⟩
      · simp at hline
      · refine hc r hreturn ?_
        rw [List.head?_take] at hline
        split_ifs at hline
        simpa using hline

/-- Two texts read one after the other, where no line ending is made of both. -/
lemma decode_append {x y : List Char} (h : x.getLast? = some '\r' → y.head? ≠ some '\n') :
    decode (x ++ y) = decode x ++ decode y := by
  fun_induction decode x with
  | case1 => rfl
  | case2 r ih =>
    rw [List.cons_append, List.cons_append, decode, ih, List.cons_append]
    intro hlast
    refine h ?_
    rw [List.getLast?_cons_cons, List.getLast?_cons, hlast]
    rfl
  | case3 c r hc ih =>
    rw [List.cons_append, decode_cons, ih, List.cons_append]
    · intro hlast
      refine h ?_
      rw [List.getLast?_cons, hlast]
      rfl
    · rintro rfl hline
      rcases r with _ | ⟨d, r⟩
      · exact h rfl hline
      · exact hc r rfl (by simpa using hline)

lemma chars_append (ps qs : List CodePoint) : chars (ps ++ qs) = chars ps ++ chars qs := by
  simp [chars]

lemma chars_take (ps : List CodePoint) (k : ℕ) : chars (ps.take k) = (chars ps).take k := by
  simp [chars]

/-! ### Characters that read as themselves -/

lemma normalize_eq_iff {c d : Char} (hline : d ≠ '\n') (hnul : d ≠ replacement)
    (hself : normalize d = d) : normalize c = d ↔ c = d := by
  refine ⟨fun h => ?_, fun h => by rw [h, hself]⟩
  unfold normalize at h
  split_ifs at h
  · exact absurd h.symm hline
  · exact absurd h.symm hnul
  · exact h

/-- A character that reads as itself, and as which no other reads. -/
def Plain (c : Char) : Prop := c ≠ '\n' ∧ c ≠ replacement ∧ normalize c = c

instance (c : Char) : Decidable (Plain c) := inferInstanceAs (Decidable (_ ∧ _ ∧ _))

lemma decode_append_plain {w : List Char} (h : ∀ c ∈ w, Plain c) (r : List Char) :
    decode (w ++ r) = w.map (⟨·, 1⟩) ++ decode r := by
  induction w with
  | nil => rfl
  | cons c w ih =>
    obtain ⟨hline, -, hself⟩ := h c List.mem_cons_self
    have hreturn : c ≠ '\r' := by
      rintro rfl
      exact hline hself.symm
    rw [List.cons_append, decode_cons (fun hc => absurd hc hreturn), hself,
      ih fun d hd => h d (List.mem_cons_of_mem c hd)]
    rfl

lemma prefix_chars_decode_iff {w t : List Char} (h : ∀ c ∈ w, Plain c) :
    w <+: chars (decode t) ↔ w <+: t := by
  constructor
  · intro hw
    induction w generalizing t with
    | nil => exact List.nil_prefix
    | cons c w ih =>
      obtain ⟨hline, hnul, hself⟩ := h c List.mem_cons_self
      fun_cases decode t with
      | case1 => simp [decode] at hw
      | case2 r =>
        rw [decode, chars_cons, List.cons_prefix_cons] at hw
        exact absurd hw.1 hline
      | case3 d r hd =>
        rw [decode.eq_3 d r hd, chars_cons, List.cons_prefix_cons] at hw
        obtain rfl := (normalize_eq_iff hline hnul hself).mp hw.1.symm
        exact List.cons_prefix_cons.mpr
          ⟨rfl, ih (fun e he => h e (List.mem_cons_of_mem d he)) hw.2⟩
  · rintro ⟨r, rfl⟩
    rw [decode_append_plain h, chars_append]
    refine ⟨chars (decode r), ?_⟩
    simp [chars, Function.comp_def]

lemma infix_chars_decode_iff {w t : List Char} (h : ∀ c ∈ w, Plain c) :
    w <:+: chars (decode t) ↔ w <:+: t := by
  fun_induction decode t with
  | case1 => rfl
  | case2 r ih =>
    have hfront := prefix_chars_decode_iff (t := '\r' :: '\n' :: r) h
    rw [decode] at hfront
    rw [chars_cons] at hfront ⊢
    rw [List.infix_cons_iff, List.infix_cons_iff, List.infix_cons_iff, hfront, ih]
    refine or_congr_right (iff_or_self.mpr fun hline => ?_)
    rcases w with _ | ⟨d, w⟩
    · exact List.nil_infix
    · obtain rfl : d = '\n' := (List.cons_prefix_cons.mp hline).1
      exact absurd rfl (h '\n' List.mem_cons_self).1
  | case3 d r hd ih =>
    have hfront := prefix_chars_decode_iff (t := d :: r) h
    rw [decode.eq_3 d r hd] at hfront
    rw [chars_cons] at hfront ⊢
    rw [List.infix_cons_iff, List.infix_cons_iff, hfront, ih]

lemma width_take_plain {w t : List Char} (h : ∀ c ∈ w, Plain c) (hw : w <+: t) :
    width ((decode t).take w.length) = w.length := by
  obtain ⟨r, rfl⟩ := hw
  rw [decode_append_plain h, List.take_left' (List.length_map _)]
  clear h
  induction w with
  | nil => rfl
  | cons c w ih => rw [List.map_cons, width_cons, ih, List.length_cons, Nat.add_comm]

end Stylesheet.Text

namespace Stylesheet

open Stylesheet.Text

namespace Source

variable {s : Source} {e : ℕ}

/-! ### Behind some code points -/

lemma skip_ahead (s : Source) (n : ℕ) : (s.skip n).ahead = s.ahead.drop n := by
  rw [ahead, skip, locationAfter, ← List.drop_drop]
  exact decode_drop_width _ _

lemma skip_rest (s : Source) (n : ℕ) : (s.skip n).rest = s.rest.drop n := by
  rw [rest, skip_ahead, chars_drop, ← rest]

/-! ### Where tokens start -/

def starts (s : Source) : List ℕ := s.tokensToEnd.map Token.start

lemma starts_of_end (h : s.location = s.text.length) : s.starts = [s.location] := by
  rw [starts, tokensToEnd, tokens_of_end (Nat.le_of_eq h.symm), h]
  rfl

lemma starts_cons (h : s.location < s.text.length) : s.starts = s.location :: s.next.starts := by
  rw [starts, tokensToEnd, tokens_cons h]
  rfl

lemma next_locationAfter (s : Source) (k : ℕ) :
    s.next.locationAfter k = s.locationAfter ((lex s.rest).size + k) := by
  rw [locationAfter, next_location, next_ahead, token_stop, locationAfter, locationAfter,
    List.take_add, width_append, Nat.add_assoc]

lemma exists_locationAfter (h : s.location ≤ s.text.length) (he : e ∈ s.starts) :
    ∃ k, e = s.locationAfter k := by
  induction s using next_induction with
  | atEnd s hend =>
    rw [starts_of_end (Nat.le_antisymm h hend), List.mem_singleton] at he
    exact ⟨0, by simp [he, locationAfter]⟩
  | step s hlt ih =>
    rw [starts_cons hlt, List.mem_cons] at he
    obtain rfl | he := he
    · exact ⟨0, by simp [locationAfter]⟩
    · obtain ⟨k, rfl⟩ := ih (token_stop_le h) he
      exact ⟨_, next_locationAfter s k⟩

lemma le_of_mem_starts (h : s.location ≤ s.text.length) (he : e ∈ s.starts) : s.location ≤ e := by
  obtain ⟨k, rfl⟩ := exists_locationAfter h he
  exact Nat.le_add_right _ _

lemma start_mem_starts {t : Token} (ht : t ∈ s.tokens) : t.start ∈ s.starts :=
  List.mem_map_of_mem (List.mem_append_left _ ht)

lemma lt_length_of_locationAfter {k : ℕ} (h : s.location ≤ s.text.length)
    (hk : s.locationAfter k < s.text.length) : k < s.ahead.length := by
  by_contra hge
  rw [locationAfter, List.take_of_length_le (Nat.le_of_not_lt hge), ahead, width_decode,
    List.length_drop] at hk
  omega

lemma lt_length_of_rest {c : Char} {r : List Char} (h : s.rest = c :: r) :
    s.location < s.text.length := by
  rw [← Nat.not_le, ← rest_eq_nil_iff, h]
  exact List.cons_ne_nil c r

lemma lex_size_pos (h : s.location < s.text.length) : 0 < (lex s.rest).size := by
  have hrest : s.rest ≠ [] := mt rest_eq_nil_iff.mp (Nat.not_le.mpr h)
  obtain ⟨c, r, hcons⟩ := List.exists_cons_of_ne_nil hrest
  rw [hcons]
  exact (lex_takes c r).2.1

/-! ### Another end -/

/-- The source with `more` behind the first `e` characters. -/
def splice (s : Source) (e : ℕ) (more : List Char) : Source :=
  ⟨s.text.take e ++ more, s.location⟩

@[simp] lemma splice_location (more : List Char) : (s.splice e more).location = s.location := rfl

lemma ahead_splice (h : s.location ≤ s.text.length) (k : ℕ) {more : List Char}
    (hmore : Neutral more) :
    (s.splice (s.locationAfter k) more).ahead = s.ahead.take k ++ decode more := by
  have hline : more.head? ≠ some '\n' := by
    obtain rfl | ⟨r, rfl⟩ := hmore <;> simp
  have hfront : (s.text.take (s.locationAfter k)).drop s.location =
      (s.text.drop s.location).take (width (s.ahead.take k)) := by
    rw [List.drop_take, locationAfter, Nat.add_sub_cancel_left]
  have hle : s.location ≤ (s.text.take (s.locationAfter k)).length := by
    rw [List.length_take, locationAfter]
    omega
  rw [ahead, splice_location, splice, List.drop_append_of_le_length hle, hfront,
    decode_append fun _ => hline, ahead, decode_take_width]

lemma neutral_decode {more : List Char} (hmore : Neutral more) : Neutral (chars (decode more)) := by
  obtain rfl | ⟨r, rfl⟩ := hmore
  · exact .inl rfl
  · refine .inr ⟨chars (decode r), ?_⟩
    rw [decode_cons (by simp)]
    rfl

lemma rest_splice (h : s.location ≤ s.text.length) (k : ℕ) {more : List Char}
    (hmore : Neutral more) :
    (s.splice (s.locationAfter k) more).rest = s.rest.take k ++ chars (decode more) := by
  rw [rest, ahead_splice h k hmore, chars_append, chars_take, ← rest]

lemma length_rest : s.rest.length = s.ahead.length := by
  rw [rest, chars, List.length_map]

/-- **One token before another end** is what it was, unless it clings to what followed it. -/
lemma token_splice (h : s.location ≤ s.text.length) {k : ℕ}
    (hk : s.locationAfter k < s.text.length) (hpos : 0 < k) (hsize : (lex s.rest).size ≤ k)
    {more : List Char} (hmore : Neutral more)
    (hfree : ¬ Clings (s.rest.take k) (s.rest.drop k) (chars (decode more)) (lex s.rest)) :
    (s.splice (s.locationAfter k) more).token = s.token := by
  have hlt := lt_length_of_locationAfter h hk
  have hlength : (s.rest.take k).length = k := by
    rw [List.length_take, length_rest]
    omega
  have hfront : s.rest.take k ≠ [] := by
    rw [← List.length_pos_iff_ne_nil, hlength]
    exact hpos
  have hback : s.rest.drop k ≠ [] := by
    rw [Ne, List.drop_eq_nil_iff, length_rest]
    omega
  have hsame := lex_append hfront hback (neutral_decode hmore)
    (by rwa [List.take_append_drop, hlength]) (by rwa [List.take_append_drop])
  rw [List.take_append_drop, ← rest_splice h k hmore] at hsame
  have hwidth : (s.splice (s.locationAfter k) more).ahead.take (lex s.rest).size =
      s.ahead.take (lex s.rest).size := by
    rw [ahead_splice h k hmore, List.take_append_of_le_length, List.take_take,
      Nat.min_eq_left hsize]
    rw [List.length_take]
    omega
  rw [token, hsame, Lexeme.token, hwidth]
  rfl

/-! ### Places that depend on what follows -/

/-- The token `t` depends on what follows the place `e`: it is a bad string that a newline there has
ended, or a backslash that a newline there leaves alone, or it is `url(` before a quote, and nothing
but blanks lies between it and the place. -/
inductive Hangs (s : Source) (e : ℕ) (t : Token) : Prop
  | string (kind : t.kind = .badString) (stop : t.stop = e)
  | escape (kind : t.kind = .delim) (value : s.valueAt .delim t.start = .ok (some ['\\']))
    (stop : t.stop = e)
  | url (kind : t.kind = .function) (name : List Char)
    (value : s.valueAt .function t.start = .ok (some name)) (word : sameWord name ['u', 'r', 'l'])
    (stop : t.stop = e ∨ ∃ b ∈ s.tokens, b.kind = .whitespace ∧ b.start = t.stop ∧ b.stop = e)

/-- A place where the text cannot be given another end. -/
def Open (s : Source) (e : ℕ) : Prop := ∃ t ∈ s.tokens, s.Hangs e t

lemma mem_tokens_of_next (h : s.location < s.text.length) {t : Token} (ht : t ∈ s.next.tokens) :
    t ∈ s.tokens := by
  rw [tokens_cons h]
  exact List.mem_cons_of_mem _ ht

lemma token_mem_tokens (h : s.location < s.text.length) : s.token ∈ s.tokens := by
  rw [tokens_cons h]
  exact List.mem_cons_self

lemma Hangs.of_subset {s' : Source} {t : Token} (hangs : s'.Hangs e t) (htext : s'.text = s.text)
    (hsub : ∀ b ∈ s'.tokens, b.start = t.stop → b ∈ s.tokens) : s.Hangs e t := by
  have hvalue : ∀ kind location, s'.valueAt kind location = s.valueAt kind location := by
    intro kind location
    simp only [valueAt, seek, htext]
  cases hangs with
  | string kind stop => exact .string kind stop
  | escape kind value stop => exact .escape kind (by rwa [hvalue] at value) stop
  | url kind name value word stop =>
    refine .url kind name (by rwa [hvalue] at value) word (stop.imp id ?_)
    rintro ⟨b, hb, hblank, hstart, hstop⟩
    exact ⟨b, hsub b hb hstart, hblank, hstart, hstop⟩

lemma Open.of_next (h : s.location < s.text.length) (hopen : s.next.Open e) : s.Open e := by
  obtain ⟨t, ht, hangs⟩ := hopen
  exact ⟨t, mem_tokens_of_next h ht, hangs.of_subset rfl fun _ hb _ => mem_tokens_of_next h hb⟩

lemma valueAt_location (h : s.location ≤ s.text.length) {kind : TokenKind}
    {read : List Char → List Char} (hread : kind.reader? = some read) :
    s.valueAt kind s.location = .ok (some (read s.rest)) := by
  rw [valueAt, hread]
  simp only [seek, if_pos h]
  rfl

lemma open_of_dangling (h : s.location ≤ s.text.length) {k : ℕ}
    (hd : Dangling (s.rest.take k) (s.rest.drop k)) : s.Open (s.locationAfter k) := by
  obtain ⟨r, hslash, hnewline⟩ := Lexeme.exists_newline hd
  have hrest : s.rest = '\\' :: '\n' :: r := by
    rw [← List.take_append_drop k s.rest, hslash, hnewline, List.singleton_append]
  have hlt := lt_length_of_rest hrest
  have hlex : lex s.rest = ⟨.delim, 1, some .invalidEscape⟩ := by
    rw [hrest]
    rfl
  have hone : k = 1 := by
    have hlength := congrArg List.length hslash
    rw [List.length_take, hrest] at hlength
    simp only [List.length_cons, List.length_nil] at hlength
    omega
  refine ⟨s.token, token_mem_tokens hlt, .escape ?_ ?_ ?_⟩
  · rw [token_kind, hlex]
  · rw [token_start, valueAt_location h rfl, hrest]
    rfl
  · rw [token_stop, hlex, hone]

lemma locationAfter_mono (s : Source) {k l : ℕ} (h : k ≤ l) :
    s.locationAfter k ≤ s.locationAfter l := by
  obtain ⟨d, rfl⟩ := Nat.exists_eq_add_of_le h
  rw [locationAfter, locationAfter, List.take_add, width_append]
  omega

/-- A name that a dangling backslash ends comes before it, perhaps with a dash between. -/
lemma open_of_withheld (h : s.location ≤ s.text.length) {k : ℕ}
    (hd : Withheld (s.rest.take k) (s.rest.drop k)) : s.Open (s.locationAfter k) := by
  obtain hd | ⟨r, hdash, hd⟩ := hd
  · exact open_of_dangling h hd
  · obtain ⟨t, rfl, hnewline⟩ := Lexeme.exists_newline hd
    have hrest : s.rest = '-' :: '\\' :: '\n' :: t := by
      rw [← List.take_append_drop k s.rest, hdash, hnewline]
      rfl
    have hlt := lt_length_of_rest hrest
    have hlex : lex s.rest = ⟨.delim, 1, none⟩ := by
      rw [hrest]
      rfl
    have htwo : k = 2 := by
      have hlength := congrArg List.length hdash
      rw [List.length_take, hrest] at hlength
      simp only [List.length_cons, List.length_nil] at hlength
      omega
    have hnext : s.next.rest = '\\' :: '\n' :: t := by
      rw [next_rest, hlex, hrest]
      rfl
    have hopen : s.next.Open (s.next.locationAfter 1) := by
      refine open_of_dangling (token_stop_le h) ?_
      rw [hnext]
      exact ⟨rfl, rfl⟩
    rw [next_locationAfter, hlex] at hopen
    rw [htwo]
    exact hopen.of_next hlt

lemma token_of_blanks (h : s.location < s.text.length) {k : ℕ} (hpos : 0 < k)
    (hk : s.locationAfter k < s.text.length) (he : s.locationAfter k ∈ s.starts)
    (hall : (s.rest.take k).all isBlank) :
    s.token.kind = .whitespace ∧ s.token.stop = s.locationAfter k := by
  have hlt := lt_length_of_locationAfter (Nat.le_of_lt h) hk
  rw [← length_rest] at hlt
  obtain ⟨c, r, hrest⟩ : ∃ c r, s.rest = c :: r := by
    refine List.exists_cons_of_ne_nil fun hnil => ?_
    rw [hnil] at hlt
    exact Nat.not_lt_zero _ hlt
  have hc : isBlank c := by
    rw [List.all_eq_true] at hall
    refine hall c ?_
    obtain ⟨k, rfl⟩ := Nat.exists_eq_add_of_lt hpos
    rw [hrest, Nat.zero_add, List.take_succ_cons]
    exact List.mem_cons_self
  have hlex : lex s.rest = ⟨.whitespace, blankSize s.rest, none⟩ := by
    rw [hrest]
    exact lex_of_blank hc
  have hsize : k ≤ blankSize s.rest := by
    have hself : (s.rest.take k).takeWhile isBlank = s.rest.take k :=
      List.takeWhile_eq_self_iff.mpr (List.all_eq_true.mp hall)
    rw [blankSize, ← List.take_append_drop k s.rest, List.takeWhile_append, hself, if_pos rfl,
      List.length_append, List.length_take, Nat.min_eq_left (Nat.le_of_lt hlt)]
    exact Nat.le_add_right _ _
  refine ⟨by rw [token_kind, hlex], ?_⟩
  rw [starts_cons h, List.mem_cons] at he
  obtain heq | he := he
  · have hwidth := width_take_pos (t := s.text.drop s.location) (k := k) ?_ hpos
    · rw [locationAfter, ahead] at heq
      omega
    · rw [Ne, List.drop_eq_nil_iff]
      omega
  · have hle := le_of_mem_starts (token_stop_le (Nat.le_of_lt h)) he
    rw [next_location] at hle
    rw [token_stop, hlex] at hle ⊢
    exact Nat.le_antisymm hle (locationAfter_mono s hsize)

/-- **What clings to the rest** of a text comes before a place that depends on what follows, or is
a run of comments before another one. -/
lemma open_of_clings (h : s.location < s.text.length) {k : ℕ} {w : List Char}
    (hk : s.next.locationAfter k < s.text.length) (he : s.next.locationAfter k ∈ s.next.starts)
    (hclings : Clings (s.rest.take ((lex s.rest).size + k)) (s.rest.drop ((lex s.rest).size + k)) w
      (lex s.rest)) :
    s.Open (s.next.locationAfter k) ∨
      s.token.kind = .comments ∧ s.token.stop = s.next.locationAfter k ∧ (comment? w).isSome := by
  have hle := token_stop_le (Nat.le_of_lt h)
  have hlt := lt_length_of_locationAfter (s := s.next) hle hk
  have hlength : (s.rest.take ((lex s.rest).size + k)).length = (lex s.rest).size + k := by
    rw [← length_rest, next_rest, List.length_drop] at hlt
    rw [List.length_take]
    omega
  have hfront : (s.rest.take ((lex s.rest).size + k)).drop (lex s.rest).size =
      s.next.rest.take k := by
    rw [next_rest, List.drop_take, Nat.add_sub_cancel_left]
  have hback : s.rest.drop ((lex s.rest).size + k) = s.next.rest.drop k := by
    rw [next_rest, List.drop_drop]
  have hstop : (lex s.rest).size = (lex s.rest).size + k →
      s.token.stop = s.next.locationAfter k := by
    intro heq
    rw [next_locationAfter, ← heq, token_stop]
  cases hclings with
  | string kind size => exact .inl ⟨s.token, token_mem_tokens h, .string kind (hstop (by omega))⟩
  | escape hd =>
    rw [next_locationAfter]
    exact .inl (open_of_dangling (Nat.le_of_lt h) hd)
  | name hd =>
    rw [hfront, hback] at hd
    exact .inl ((open_of_withheld (s := s.next) hle hd).of_next h)
  | url kind word blank =>
    rw [hfront] at blank
    rw [List.take_append_drop] at word
    have hvalue : s.valueAt .function s.token.start = .ok (some (nameText s.rest)) :=
      valueAt_location (Nat.le_of_lt h) rfl
    refine .inl ⟨s.token, token_mem_tokens h, .url kind _ hvalue word ?_⟩
    rcases Nat.eq_zero_or_pos k with rfl | hpos
    · exact .inl (hstop rfl)
    · have hinside : s.next.location < s.next.text.length :=
        Nat.lt_of_le_of_lt (Nat.le_add_right _ _) hk
      obtain ⟨hblank, hend⟩ := token_of_blanks hinside hpos hk he blank
      exact .inr ⟨s.next.token, mem_tokens_of_next h (token_mem_tokens hinside), hblank, rfl, hend⟩
  | comment kind size more => exact .inr ⟨kind, hstop (by omega), more⟩

/-! ### Tokens before and behind a place -/

lemma location_le_start {t : Token} (h : s.location ≤ s.text.length) (ht : t ∈ s.tokens) :
    s.location ≤ t.start :=
  le_of_mem_starts h (start_mem_starts ht)

lemma filter_lt_location (h : s.location ≤ s.text.length) :
    s.tokens.filter (·.start < s.location) = [] := by
  rw [List.filter_eq_nil_iff]
  intro t ht
  simpa using location_le_start h ht

lemma filter_lt_cons (h : s.location < s.text.length) (he : s.token.stop ≤ e) :
    s.tokens.filter (·.start < e) = s.token :: s.next.tokens.filter (·.start < e) := by
  have hfirst : s.token.start < e := Nat.lt_of_lt_of_le (lt_token_stop h) he
  rw [tokens_cons h, List.filter_cons, decide_eq_true hfirst, if_pos rfl]

lemma tokens_split (h : s.location ≤ s.text.length) (he : e ∈ s.starts) :
    s.tokens = s.tokens.filter (·.start < e) ++ (⟨s.text, e⟩ : Source).tokens := by
  induction s using next_induction with
  | atEnd s hend =>
    rw [starts_of_end (Nat.le_antisymm h hend), List.mem_singleton] at he
    rw [he, tokens_of_end hend]
    rfl
  | step s hlt ih =>
    have hstop := token_stop_le h
    rw [starts_cons hlt, List.mem_cons] at he
    obtain rfl | he := he
    · rw [filter_lt_location h]
      rfl
    · rw [filter_lt_cons hlt (le_of_mem_starts hstop he), tokens_cons hlt, List.cons_append]
      exact congrArg (s.token :: ·) (ih hstop he)

/-- **Another end**: the tokens before it stay. If what is put there starts with a comment, that
holds only up to a place `q` before the run of comments that the new one goes on. -/
theorem tokens_splice {q : ℕ} (h : s.location ≤ s.text.length) (he : e ∈ s.starts)
    (hlt : e < s.text.length) (hq : q ∈ s.starts) (hqe : q ≤ e) {more : List Char}
    (hmore : Neutral more) (hopen : ¬ s.Open e)
    (hrun : (comment? (chars (decode more))).isSome →
      ∀ t ∈ s.tokens, t.start < q → t.stop = e → t.kind ≠ .comments) :
    (s.splice e more).tokens =
      s.tokens.filter (·.start < q) ++ (⟨s.text.take e ++ more, q⟩ : Source).tokens := by
  induction s using next_induction with
  | atEnd s hend =>
    rw [starts_of_end (Nat.le_antisymm h hend), List.mem_singleton] at he
    omega
  | step s hinside ih =>
    have hstop := token_stop_le h
    rw [starts_cons hinside, List.mem_cons] at hq
    obtain rfl | hq := hq
    · rw [filter_lt_location h]
      rfl
    · have hle := le_of_mem_starts (s := s.next) hstop hq
      rw [next_location] at hle
      have hfirst := lt_token_stop hinside
      replace he : e ∈ s.next.starts := by
        rw [starts_cons hinside, List.mem_cons] at he
        exact he.resolve_left (by omega)
      have htoken : (s.splice e more).token = s.token := by
        obtain ⟨k, rfl⟩ := exists_locationAfter (s := s.next) hstop he
        have hfree : ¬ Clings (s.rest.take ((lex s.rest).size + k))
            (s.rest.drop ((lex s.rest).size + k)) (chars (decode more)) (lex s.rest) := by
          intro hclings
          obtain hd | ⟨hkind, hend, hnext⟩ := open_of_clings hinside hlt he hclings
          · exact hopen hd
          · exact hrun hnext s.token (token_mem_tokens hinside) (Nat.lt_of_lt_of_le hfirst hle) hend
              hkind
        have hsize := lex_size_pos hinside
        rw [next_locationAfter] at hlt ⊢
        exact token_splice h hlt (by omega) (Nat.le_add_right _ _) hmore hfree
      have hnext : (s.splice e more).next = s.next.splice e more := by
        rw [next, htoken]
        rfl
      have hlength : (s.splice e more).location < (s.splice e more).text.length := by
        rw [splice_location, splice, List.length_append, List.length_take]
        omega
      rw [tokens_cons hlength, htoken, hnext, filter_lt_cons hinside hle, List.cons_append]
      refine congrArg (s.token :: ·) (ih hstop he hlt hq (fun hd => hopen (hd.of_next hinside)) ?_)
      exact fun hsome t ht => hrun hsome t (mem_tokens_of_next hinside ht)

end Source

end Stylesheet
