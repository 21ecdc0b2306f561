import Stylesheet.Proofs.Relocation
import Stylesheet.Proofs.Splice

/-!
Cutting a text between tokens. A part that starts and ends where tokens start has just the tokens of
the whole that lie in it, unless one of them depends on what follows the part; and that one is
always another when the part is read on its own.
-/

namespace Stylesheet

open Stylesheet.Text

/-! ### What no text ends with -/

lemma lex_eq_named {cs : List Char} (h : (lex cs).kind = .function) : lex cs = .named cs := by
  rcases cs with _ | ⟨c, r⟩
  · cases h
  have hstring := Lexeme.string_kind c r
  obtain hlex | hlex | hlex | ⟨-, hlex⟩ | hother := lex_cases c r
  · simp [hlex] at h
  · simp [← hlex, h] at hstring
  · exact hlex
  · simp [hlex, Lexeme.comments] at h
  · simp [h] at hother

lemma all_isBlank_of_whitespace {cs : List Char} (h : (lex cs).kind = .whitespace) :
    (cs.take (lex cs).size).all isBlank := by
  rcases cs with _ | ⟨c, r⟩
  · cases h
  have hstring := Lexeme.string_kind c r
  have hnamed := Lexeme.named_kind (c :: r)
  obtain hlex | hlex | hlex | ⟨-, hlex⟩ | hother := lex_cases c r
  · have htake := List.prefix_iff_eq_take.mp (List.takeWhile_prefix (l := c :: r) isBlank)
    rw [hlex, blankSize, ← htake]
    exact List.all_takeWhile
  · simp [← hlex, h] at hstring
  · simp [← hlex, h] at hnamed
  · simp [hlex, Lexeme.comments] at h
  · simp [h] at hother

/-- A bad string has the newline behind it that ended it. -/
lemma lex_size_lt_of_badString {cs : List Char} (h : (lex cs).kind = .badString) :
    (lex cs).size < cs.length := by
  rcases cs with _ | ⟨c, r⟩
  · cases h
  have hnamed := Lexeme.named_kind (c :: r)
  obtain hlex | hlex | hlex | ⟨-, hlex⟩ | hother := lex_cases c r
  · simp [hlex] at h
  · rw [hlex] at h ⊢
    rcases hd : r.drop (extent (stringPieces c r)) with _ | ⟨d, t⟩
    · rw [Lexeme.string_of_nil hd] at h
      cases h
    · rw [Lexeme.string_of_cons hd] at h ⊢
      split_ifs at h ⊢
      have hlength := congrArg List.length hd
      rw [List.length_drop, List.length_cons] at hlength
      simp only [List.length_cons]
      omega
  · simp [← hlex, h] at hnamed
  · simp [hlex, Lexeme.comments] at h
  · simp [h] at hother

lemma exists_newline_of_delim {r : List Char} (h : (lex ('\\' :: r)).kind = .delim) :
    ∃ t, r = '\n' :: t := by
  by_cases hname : startsName ('\\' :: r)
  · have hkind := Lexeme.named_kind ('\\' :: r)
    have hlex : lex ('\\' :: r) = .named ('\\' :: r) :=
      lex_of_name (by decide) (by decide) Bool.false_ne_true (by simp) hname
    rw [← hlex, h] at hkind
    simp at hkind
  · rw [startsName_slash] at hname
    rcases r with _ | ⟨d, t⟩
    · exact absurd rfl hname
    · obtain rfl : d = '\n' := by simpa [startsEscape] using hname
      exact ⟨t, rfl⟩

lemma Lexeme.called_ne_function {n : ℕ} {r : List Char} (h : r.all isBlank) :
    (called n r).kind ≠ .function := by
  have hself : r.takeWhile isBlank = r := List.takeWhile_eq_self_iff.mpr (List.all_eq_true.mp h)
  have hdrop : r.drop (blankSize r) = [] := by rw [blankSize, hself, List.drop_length]
  intro hkind
  have hurl := url_kind (n + blankSize r) []
  rw [called, hdrop, if_neg (by simp)] at hkind
  rw [hkind] at hurl
  simp at hurl

lemma lex_ne_function_of_blanks {cs : List Char} (hword : sameWord (nameText cs) ['u', 'r', 'l'])
    (hblank : (cs.drop (lex cs).size).all isBlank) : (lex cs).kind ≠ .function := by
  intro h
  have hlex := lex_eq_named h
  rw [hlex] at h hblank
  rcases hd : cs.drop (nameSize cs) with _ | ⟨d, t⟩
  · rw [Lexeme.named_of_nil hd] at h
    cases h
  · rw [Lexeme.named_of_cons hd] at h hblank
    split_ifs at h hblank
    refine Lexeme.called_ne_function ?_ h
    rw [Lexeme.called_of_function h, ← List.drop_drop, hd] at hblank
    exact hblank

namespace Source

variable {s : Source} {e : ℕ}

lemma drop_size_eq_nil (h : s.token.stop = s.text.length) : s.rest.drop (lex s.rest).size = [] := by
  rw [← next_rest, rest_eq_nil_iff]
  exact Nat.le_of_eq h.symm

lemma splice_nil_length (he : e ≤ s.text.length) : (s.splice e []).text.length = e := by
  rw [splice, List.append_nil, List.length_take, Nat.min_eq_left he]

lemma rest_splice_nil (h : s.location ≤ s.text.length) (k : ℕ) :
    (s.splice (s.locationAfter k) []).rest = s.rest.take k := by
  rw [rest_splice h k (.inl rfl)]
  exact List.append_nil _

lemma nameText_take {cs : List Char} (h : (lex cs).kind = .function) (k : ℕ) :
    nameText (cs.take ((lex cs).size + k)) = nameText cs := by
  have hlex := lex_eq_named h
  rw [hlex] at h ⊢
  rcases hd : cs.drop (nameSize cs) with _ | ⟨d, t⟩
  · rw [Lexeme.named_of_nil hd] at h
    cases h
  · rw [Lexeme.named_of_cons hd] at h ⊢
    split_ifs at h ⊢ with hother
    all_goals obtain rfl : d = '(' := not_not.mp hother
    · rw [Lexeme.called_of_function h]
      exact (nameText_take_paren hd k).2
    · exact (nameText_take_paren hd k).2

/-- A bad string at the end of the text would be a string. -/
lemma splice_badString (h : s.location < s.text.length) (kind : s.token.kind = .badString) :
    (s.splice s.token.stop []).token ≠ s.token := by
  intro htoken
  have hlength := splice_nil_length (token_stop_le (Nat.le_of_lt h))
  have hnil := drop_size_eq_nil (s := s.splice s.token.stop []) (by rw [htoken, hlength])
  have hkind : (lex (s.splice s.token.stop []).rest).kind = .badString := by
    rw [← token_kind, htoken, kind]
  have hlt := lex_size_lt_of_badString hkind
  rw [List.drop_eq_nil_iff] at hnil
  omega

lemma exists_rest_of_escape (h : s.location < s.text.length) (kind : s.token.kind = .delim)
    (value : s.valueAt .delim s.location = .ok (some ['\\'])) :
    ∃ t, s.rest = '\\' :: '\n' :: t := by
  rw [valueAt_location (Nat.le_of_lt h) rfl] at value
  obtain ⟨r, hrest⟩ : ∃ r, s.rest = '\\' :: r := by
    rcases hcs : s.rest with _ | ⟨c, r⟩
    · exact absurd (rest_eq_nil_iff.mp hcs) (Nat.not_le.mpr h)
    · rw [hcs] at value
      obtain rfl : c = '\\' := by simpa using value
      exact ⟨r, rfl⟩
  rw [token_kind, hrest] at kind
  obtain ⟨t, rfl⟩ := exists_newline_of_delim kind
  exact ⟨t, hrest⟩

/-- A backslash at the end of the text would be a name. -/
lemma splice_escape (h : s.location < s.text.length) (kind : s.token.kind = .delim)
    (value : s.valueAt .delim s.location = .ok (some ['\\'])) :
    (s.splice s.token.stop []).token ≠ s.token := by
  intro htoken
  obtain ⟨t, hrest⟩ := exists_rest_of_escape h kind value
  have hcut : (s.splice s.token.stop []).rest = ['\\'] := by
    rw [token_stop, rest_splice_nil (Nat.le_of_lt h), hrest]
    rfl
  have hkind := congrArg Token.kind htoken
  rw [token_kind, token_kind, hcut, hrest] at hkind
  cases hkind

/-- The start of a url at the end of the text would be one. -/
lemma splice_url (h : s.location < s.text.length) (kind : s.token.kind = .function)
    (word : sameWord (nameText s.rest) ['u', 'r', 'l']) {k : ℕ}
    (blank : (s.next.rest.take k).all isBlank) :
    (s.splice (s.next.locationAfter k) []).token ≠ s.token := by
  intro htoken
  have hnext : (s.splice (s.next.locationAfter k) []).next =
      s.next.splice (s.next.locationAfter k) [] := by
    rw [next, htoken]
    rfl
  have hname : nameText (s.splice (s.next.locationAfter k) []).rest = nameText s.rest := by
    rw [next_rest] at blank
    rw [next_locationAfter, rest_splice_nil (Nat.le_of_lt h), nameText_take kind k]
  rw [← hname] at word
  refine lex_ne_function_of_blanks word ?_ ?_
  · rw [← next_rest, hnext, rest_splice_nil (token_stop_le (Nat.le_of_lt h))]
    exact blank
  · rw [← token_kind, htoken, kind]

lemma exists_blanks (h : s.next.location = e ∨
      ∃ b : Token, b.StandsIn s.text ∧ b.kind = .whitespace ∧ b.start = s.token.stop ∧ b.stop = e) :
    ∃ k, e = s.next.locationAfter k ∧ (s.next.rest.take k).all isBlank := by
  obtain rfl | ⟨b, ⟨-, hb⟩, hkind, hstart, rfl⟩ := h
  · exact ⟨0, by simp [locationAfter], by simp⟩
  · have hnext : s.next.token = b := by
      rw [← hb, hstart]
      rfl
    refine ⟨(lex s.next.rest).size, ?_, all_isBlank_of_whitespace ?_⟩
    · rw [← token_stop, hnext]
    · rw [← token_kind, hnext, hkind]

/-- **A text that ends at a place** does not have the tokens that depend on what follows there. -/
lemma token_ne_of_hangs {t : Token} (ht : t ∈ s.tokens) (hangs : s.Hangs e t) :
    (⟨s.text.take e, t.start⟩ : Source).token ≠ t := by
  obtain ⟨hinside, hthere⟩ := standsIn_of_mem_tokens ht
  have hcut : (⟨s.text.take e, t.start⟩ : Source) = (⟨s.text, t.start⟩ : Source).splice e [] := by
    rw [splice, List.append_nil]
  rw [hcut]
  nth_rewrite 2 [← hthere]
  cases hangs with
  | string kind stop =>
    rw [← stop, ← congrArg Token.stop hthere]
    exact splice_badString hinside (by rw [hthere, kind])
  | escape kind value stop =>
    rw [← stop, ← congrArg Token.stop hthere]
    exact splice_escape hinside (by rw [hthere, kind]) value
  | url kind name value word stop =>
    obtain ⟨k, hk, hblank⟩ := exists_blanks (s := ⟨s.text, t.start⟩) (e := e) (by
      rw [next_location, hthere]
      refine stop.imp id ?_
      rintro ⟨b, hb, hspace⟩
      exact ⟨b, standsIn_of_mem_tokens (s := s) hb, hspace⟩)
    have hname := valueAt_location (s := ⟨s.text, t.start⟩) (Nat.le_of_lt hinside)
      (rfl : TokenKind.function.reader? = _)
    obtain rfl : nameText (⟨s.text, t.start⟩ : Source).rest = name := by
      simpa using hname.symm.trans value
    rw [hk]
    exact splice_url hinside (by rw [hthere, kind]) word hblank

/-! ### Parts between tokens -/

lemma start_lt_stop {t : Token} (ht : t ∈ s.tokens) : t.start < t.stop := by
  obtain ⟨hinside, hthere⟩ := standsIn_of_mem_tokens ht
  have hlt := lt_token_stop (s := ⟨s.text, t.start⟩) hinside
  rwa [hthere] at hlt

lemma pairwise_tokens (s : Source) : s.tokens.Pairwise fun t u => t.stop ≤ u.start := by
  induction s using next_induction with
  | atEnd s hend =>
    rw [tokens_of_end hend]
    exact .nil
  | step s hlt ih =>
    rw [tokens_cons hlt]
    refine .cons (fun u hu => ?_) ih
    exact location_le_start (s := s.next) (token_stop_le (Nat.le_of_lt hlt)) hu

lemma eq_of_mem_tokens {t u : Token} (ht : t ∈ s.tokens) (hu : u ∈ s.tokens)
    (hstart : u.start ≤ t.start) (hstop : t.start < u.stop) : t = u := by
  have hlt := start_lt_stop ht
  have hpairwise := s.pairwise_tokens
  obtain ⟨before, behind, hsplit⟩ := List.append_of_mem ht
  rw [hsplit] at hu hpairwise
  obtain ⟨-, hbehind, hbefore⟩ := List.pairwise_append.mp hpairwise
  rcases List.mem_append.mp hu with hu | hu
  · have := hbefore u hu t List.mem_cons_self
    omega
  · rcases List.mem_cons.mp hu with rfl | hu
    · rfl
    · have := List.rel_of_pairwise_cons hbehind hu
      omega

lemma stop_le_of_start_lt (h : s.location ≤ s.text.length) (he : e ∈ s.starts) {t : Token}
    (ht : t ∈ s.tokens) (hlt : t.start < e) : t.stop ≤ e := by
  induction s using next_induction with
  | atEnd s hend => simp [tokens_of_end hend] at ht
  | step s hinside ih =>
    have hstop := token_stop_le h
    rw [starts_cons hinside, List.mem_cons] at he
    obtain rfl | he := he
    · exact absurd hlt (Nat.not_lt.mpr (location_le_start h ht))
    · rw [tokens_cons hinside, List.mem_cons] at ht
      obtain rfl | ht := ht
      · exact le_of_mem_starts (s := s.next) hstop he
      · exact ih hstop he ht

lemma stop_le_iff (h : s.location ≤ s.text.length) (he : e ∈ s.starts) {t : Token}
    (ht : t ∈ s.tokens) : t.stop ≤ e ↔ t.start < e :=
  ⟨Nat.lt_of_lt_of_le (start_lt_stop ht), stop_le_of_start_lt h he ht⟩

lemma Hangs.stop_le {t : Token} (hangs : s.Hangs e t) : t.stop ≤ e := by
  cases hangs with
  | string _ stop => exact Nat.le_of_eq stop
  | escape _ _ stop => exact Nat.le_of_eq stop
  | url _ _ _ _ stop =>
    obtain stop | ⟨b, -, -, hstart, hstop⟩ := stop
    · exact Nat.le_of_eq stop
    · rw [← hstart, ← hstop]
      exact Nat.le_add_right _ _

/-- **Ending a text** at a place where a token starts leaves the tokens before it as they are just
if none of them depends on what follows. -/
lemma tokens_splice_nil_iff (h : s.location ≤ s.text.length) (he : e ∈ s.starts) :
    (s.splice e []).tokens = s.tokens.filter (·.start < e) ↔ ¬ s.Open e := by
  constructor
  · rintro hkept ⟨t, ht, hangs⟩
    have hlt : t.start < e := Nat.lt_of_lt_of_le (start_lt_stop ht) hangs.stop_le
    have hmem : t ∈ (s.splice e []).tokens := by
      rw [hkept, List.mem_filter]
      exact ⟨ht, decide_eq_true hlt⟩
    refine token_ne_of_hangs ht hangs ?_
    have hstands := (standsIn_of_mem_tokens hmem).2
    rwa [splice, List.append_nil] at hstands
  · intro hopen
    rcases Nat.lt_or_ge e s.text.length with hlt | hge
    · have hkept := tokens_splice h he hlt he (Nat.le_refl e) (.inl rfl) hopen
        (fun hsome => by cases hsome)
      have hend : (⟨s.text.take e ++ [], e⟩ : Source).tokens = [] := by
        refine tokens_of_end ?_
        rw [List.append_nil, List.length_take]
        exact Nat.min_le_left _ _
      rw [hkept, hend, List.append_nil]
    · have hsame : s.splice e [] = s := by
        rw [splice, List.append_nil, List.take_of_length_le hge]
      rw [hsame, eq_comm, List.filter_eq_self]
      intro t ht
      have hinside := (standsIn_of_mem_tokens ht).1
      exact decide_eq_true (by omega)

/-- The source `cut` has just the tokens of `s` that lie between `p` and `e`, each `p` characters
earlier, and then the end token; and it has the lexical errors of these tokens. -/
structure Cut (s : Source) (p e : ℕ) (cut : Source) : Prop where
  tokens : cut.tokensToEnd.map (Token.relocate (· + p)) =
    s.tokens.filter (fun t => p ≤ t.start ∧ t.stop ≤ e) ++ [⟨.eof, ⟨e, 0⟩, none⟩]
  errors : cut.lexErrors.map (LexError.relocate (· + p)) =
    s.lexErrors.filter fun x => p ≤ x.location ∧ x.location < e

section part

variable {p : ℕ}

lemma le_length_of_mem_starts (h : s.location ≤ s.text.length) (hp : p ∈ s.starts) :
    p ≤ s.text.length := by
  obtain ⟨k, rfl⟩ := exists_locationAfter h hp
  exact locationAfter_le h k

lemma tokens_from (h : s.location ≤ s.text.length) (hp : p ∈ s.starts) :
    (⟨s.text, p⟩ : Source).tokens = s.tokens.filter (p ≤ ·.start) := by
  have hbefore : (s.tokens.filter (·.start < p)).filter (p ≤ ·.start) = [] := by
    rw [List.filter_eq_nil_iff]
    intro t ht
    have hlt := of_decide_eq_true (List.mem_filter.mp ht).2
    simpa using hlt
  have hbehind : (⟨s.text, p⟩ : Source).tokens.filter (p ≤ ·.start) =
      (⟨s.text, p⟩ : Source).tokens := by
    rw [List.filter_eq_self]
    intro t ht
    have hple := le_length_of_mem_starts h hp
    exact decide_eq_true (location_le_start (s := ⟨s.text, p⟩) hple ht)
  conv_rhs => rw [tokens_split h hp, List.filter_append, hbefore, hbehind, List.nil_append]

lemma mem_tokens_from (h : s.location ≤ s.text.length) (hp : p ∈ s.starts) {t : Token} :
    t ∈ (⟨s.text, p⟩ : Source).tokens ↔ t ∈ s.tokens ∧ p ≤ t.start := by
  rw [tokens_from h hp, List.mem_filter, decide_eq_true_iff]

lemma mem_starts_from (h : s.location ≤ s.text.length) (hp : p ∈ s.starts) (he : e ∈ s.starts)
    (hle : p ≤ e) : e ∈ (⟨s.text, p⟩ : Source).starts := by
  obtain ⟨t, ht, rfl⟩ := List.mem_map.mp he
  refine List.mem_map_of_mem (List.mem_append.mpr ?_)
  obtain ht | ht := List.mem_append.mp ht
  · exact .inl ((mem_tokens_from h hp).mpr ⟨ht, hle⟩)
  · exact .inr ht

lemma open_from_iff (h : s.location ≤ s.text.length) (hp : p ∈ s.starts) :
    (⟨s.text, p⟩ : Source).Open e ↔ ∃ t ∈ s.tokens, p ≤ t.start ∧ s.Hangs e t := by
  constructor
  · rintro ⟨t, ht, hangs⟩
    obtain ⟨hmem, hle⟩ := (mem_tokens_from h hp).mp ht
    exact ⟨t, hmem, hle, hangs.of_subset rfl fun b hb _ => ((mem_tokens_from h hp).mp hb).1⟩
  · rintro ⟨t, ht, hle, hangs⟩
    refine ⟨t, (mem_tokens_from h hp).mpr ⟨ht, hle⟩, hangs.of_subset rfl fun b hb hstart => ?_⟩
    refine (mem_tokens_from h hp).mpr ⟨hb, ?_⟩
    rw [hstart]
    exact Nat.le_trans hle (Nat.le_add_right _ _)

lemma lexErrors_part (h : s.location ≤ s.text.length) (he : e ∈ s.starts) :
    (s.tokens.filter fun t => p ≤ t.start ∧ t.stop ≤ e).filterMap Token.lexError? =
      s.lexErrors.filter fun x => p ≤ x.location ∧ x.location < e := by
  rw [lexErrors, List.filterMap_filter, List.filter_filterMap]
  refine List.filterMap_congr fun t ht => ?_
  have hends := stop_le_iff h he ht
  rw [Token.lexError?]
  rcases t.error with _ | k
  · simp
  · simp [Option.filter, hends]

lemma tokens_part (h : s.location ≤ s.text.length) (hp : p ∈ s.starts) (he : e ∈ s.starts) :
    (⟨s.text, p⟩ : Source).tokens.filter (·.start < e) =
      s.tokens.filter fun t => p ≤ t.start ∧ t.stop ≤ e := by
  rw [tokens_from h hp, List.filter_filter]
  refine List.filter_congr fun t ht => ?_
  have hends := stop_le_iff h he ht
  rw [← Bool.decide_and]
  exact decide_eq_decide.mpr (by rw [hends, and_comm])

lemma cut_iff (h : s.location ≤ s.text.length) (hp : p ∈ s.starts) (he : e ∈ s.starts)
    (hle : p ≤ e) :
    s.Cut p e ⟨(s.text.drop p).take (e - p), 0⟩ ↔
      ¬ ∃ t ∈ s.tokens, p ≤ t.start ∧ s.Hangs e t := by
  have hlength := le_length_of_mem_starts h he
  have htokens : ((⟨s.text, p⟩ : Source).splice e []).tokens =
      (⟨(s.text.drop p).take (e - p), 0⟩ : Source).tokens.map (Token.relocate (· + p)) := by
    refine tokens_add (Nat.zero_add p).symm ?_
    rw [ahead, splice_location, splice, List.append_nil, List.drop_take]
    rfl
  have hend : (⟨(s.text.drop p).take (e - p), 0⟩ : Source).endToken.relocate (· + p) =
      ⟨.eof, ⟨e, 0⟩, none⟩ := by
    have hsum : ((s.text.drop p).take (e - p)).length + p = e := by
      rw [List.length_take, List.length_drop]
      omega
    simp only [endToken, Token.relocate, Span.relocate, hsum]
  have hple := le_length_of_mem_starts h hp
  have hkept := tokens_splice_nil_iff (s := ⟨s.text, p⟩) hple (mem_starts_from h hp he hle)
  rw [htokens, tokens_part h hp he, open_from_iff h hp] at hkept
  rw [← hkept]
  constructor
  · intro hcut
    have hall := hcut.tokens
    rw [tokensToEnd, List.map_append, List.map_singleton, hend] at hall
    exact List.append_cancel_right hall
  · intro hsame
    refine ⟨?_, ?_⟩
    · rw [tokensToEnd, List.map_append, List.map_singleton, hend, hsame]
    · rw [← lexErrors_part h he, ← hsame, lexErrors, List.filterMap_map, List.map_filterMap]
      refine List.filterMap_congr fun t _ => ?_
      exact (t.lexError?_relocate _).symm

lemma ofChars_eq_ok_iff {text : List Char} :
    ofChars text = .ok s ↔ s = ⟨text, 0⟩ ∧ ∀ c ∈ text, c.toNat < 128 := by
  unfold ofChars
  split
  · next hnone =>
    rw [List.findIdx?_eq_none_iff] at hnone
    have hascii : ∀ c ∈ text, c.toNat < 128 := by
      intro c hc
      simpa using hnone c hc
    exact ⟨fun hok => ⟨(Except.ok.inj hok).symm, hascii⟩, fun hs => by rw [hs.1]⟩
  · next i hsome =>
    obtain ⟨hlt, hlarge, -⟩ := List.findIdx?_eq_some_iff_getElem.mp hsome
    refine ⟨fun hok => ?_, fun hs => ?_⟩
    · cases hok
    · have hsmall := hs.2 _ (List.getElem_mem hlt)
      have hge := of_decide_eq_true hlarge
      omega

/-- **Cutting between tokens**: a part of a text from the start of a token to the start of another,
or to the end, is read on its own as it is read in the text, except just when a token in the part
depends on what follows the part: a bad string or a backslash that ends there, or `url(` before
nothing but blanks. -/
theorem cut_between_tokens {text : List Char} {s : Source} (h : ofChars text = .ok s) {p e : ℕ}
    (hp : p ∈ s.starts) (he : e ∈ s.starts) (hle : p ≤ e) :
    ∃ part cut, s.slice p e = .ok part ∧ ofChars part = .ok cut ∧
      (s.Cut p e cut ↔ ¬ ∃ t ∈ s.tokens, p ≤ t.start ∧ s.Hangs e t) := by
  obtain ⟨rfl, hascii⟩ := ofChars_eq_ok_iff.mp h
  have hlength := le_length_of_mem_starts (Nat.zero_le _) he
  refine ⟨(text.drop p).take (e - p), ⟨(text.drop p).take (e - p), 0⟩, ?_, ?_, ?_⟩
  · exact if_pos ⟨hle, hlength⟩
  · refine ofChars_eq_ok_iff.mpr ⟨rfl, fun c hc => hascii c ?_⟩
    exact List.mem_of_mem_drop (List.mem_of_mem_take hc)
  · exact cut_iff (Nat.zero_le _) hp he hle

/-- The start of a url before a quoted string, cut behind its blank: alone it is an unterminated
url. -/
theorem cut_between_tokens_url :
    ∃ part cut, (⟨['u', 'R', 'l', '(', ' ', '"', '"'], 0⟩ : Source).slice 0 5 = .ok part ∧
      ofChars part = .ok cut ∧
      ¬ (⟨['u', 'R', 'l', '(', ' ', '"', '"'], 0⟩ : Source).Cut 0 5 cut := by
  obtain ⟨part, cut, hpart, hcut, hiff⟩ := cut_between_tokens
    (p := 0) (e := 5)
    (rfl : ofChars ['u', 'R', 'l', '(', ' ', '"', '"'] = .ok _) (by decide) (by decide) (by decide)
  refine ⟨part, cut, hpart, hcut, fun hsame => hiff.mp hsame ?_⟩
  refine ⟨⟨.function, ⟨0, 4⟩, none⟩, by decide, Nat.le_refl 0, ?_⟩
  exact .url rfl ['u', 'R', 'l'] rfl (by decide)
    (.inr ⟨⟨.whitespace, ⟨4, 1⟩, none⟩, by decide, rfl, rfl, rfl⟩)

end part

end Source

end Stylesheet
