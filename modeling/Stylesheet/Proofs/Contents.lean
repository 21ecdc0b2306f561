import Stylesheet.Proofs.Cutting

/-!
What a token says is in the token. The readers of names, strings and urls scan a text once more, by
rules of their own: a string may be read up to its newline, a url without a look at its escapes. On
the text of a token alone they come to the same end as in the whole text, and spell no more
characters than it has.
-/

namespace Stylesheet

open Stylesheet.Text

namespace Text

variable {next : List Char → Option Piece} {cs : List Char} {n : ℕ}

/-! ### Runs of pieces -/

lemma exists_of_mem_pieces (hadvances : Advances Piece.size next) {p : Piece}
    (hp : p ∈ pieces next cs) : ∃ k, next (cs.drop k) = some p := by
  induction cs using units_induction hadvances with
  | stop cs _ hnil =>
    rw [pieces, hnil] at hp
    cases hp
  | unit cs a ha hunits ih =>
    rw [pieces, hunits] at hp
    rcases List.mem_cons.mp hp with rfl | hp
    · exact ⟨0, ha⟩
    · obtain ⟨k, hk⟩ := ih hp
      exact ⟨a.size + k, by rwa [← List.drop_drop]⟩

lemma next_drop_extent (hadvances : Advances Piece.size next) (cs : List Char) :
    next (cs.drop (extent (pieces next cs))) = none := by
  rw [extent_eq_taken]
  exact declines_behind_units hadvances cs

/-- A reader that finds all pieces of another one, and ends where that does, reads the same. -/
lemma pieces_congr {other : List Char → Option Piece} (hadvances : Advances Piece.size next)
    (hother : Advances Piece.size other) (hsame : ∀ cs p, next cs = some p → other cs = some p)
    (hstop : other (cs.drop (extent (pieces next cs))) = none) :
    pieces other cs = pieces next cs := by
  induction cs using units_induction hadvances with
  | stop cs _ hnil =>
    have hnext : pieces next cs = [] := hnil
    rw [hnext] at hstop ⊢
    exact units_of_none _ _ hstop
  | unit cs a ha hunits ih =>
    have hnext : pieces next cs = a :: pieces next (cs.drop a.size) := hunits
    have hthere : pieces other cs = a :: pieces other (cs.drop a.size) :=
      units_of_some hother (hsame cs a ha)
    rw [hnext, extent, ← List.drop_drop] at hstop
    rw [hnext, hthere, ih hstop]

/-- **A run that ends in the front part** of a text is the same if nothing follows the part. -/
lemma pieces_take (hadvances : Advances Piece.size next)
    (hstep : ∀ u v p, v ≠ [] → next (u ++ v) = some p → p.size ≤ u.length → next u = some p)
    (hstop : ∀ u k, next u = none → next (u.take k) = none)
    (h : extent (pieces next cs) ≤ n) : pieces next (cs.take n) = pieces next cs := by
  rcases Nat.lt_or_ge n cs.length with hlt | hge
  · have hv : cs.drop n ≠ [] := by
      rw [Ne, List.drop_eq_nil_iff]
      omega
    have hend : next ((cs.take n).drop (extent (pieces next cs))) = none := by
      rw [List.drop_take]
      exact hstop _ _ (next_drop_extent hadvances cs)
    have hsame := pieces_append (u := cs.take n) (v := cs.drop n) (w := []) 0 hadvances
      (fun u p hp hle => by rw [List.append_nil]; exact hstep u _ p hv hp hle)
      (by rw [List.take_append_drop, List.length_take]; omega)
      (fun _ => by rwa [List.take_append_drop, List.append_nil])
    rwa [List.take_append_drop, List.append_nil] at hsame
  · rw [List.take_of_length_le hge]

lemma length_spelled_le_extent {ps : List Piece} (h : ∀ p ∈ ps, 0 < p.size) :
    (spelled ps).length ≤ extent ps := by
  induction ps with
  | nil => exact Nat.le_refl 0
  | cons p ps ih =>
    have hpos := h p List.mem_cons_self
    have hle := ih fun q hq => h q (List.mem_cons_of_mem p hq)
    have hone : (spelled (p :: ps)).length ≤ 1 + (spelled ps).length := by
      unfold spelled
      rcases hd : p.decoded with _ | c
      · rw [List.filterMap_cons_none hd]
        omega
      · rw [List.filterMap_cons_some hd, List.length_cons, Nat.add_comm]
    rw [extent]
    omega

lemma length_spelled_le (hadvances : Advances Piece.size next) (cs : List Char) :
    (spelled (pieces next cs)).length ≤ cs.length := by
  refine Nat.le_trans (length_spelled_le_extent fun p hp => ?_) (extent_pieces_le hadvances cs)
  obtain ⟨k, hk⟩ := exists_of_mem_pieces hadvances hp
  exact (hadvances hk).1

lemma length_le_width {ps : List CodePoint} (h : ∀ p ∈ ps, 0 < p.width) : ps.length ≤ width ps := by
  induction ps with
  | nil => exact Nat.le_refl 0
  | cons p ps ih =>
    have hpos := h p List.mem_cons_self
    have hle := ih fun q hq => h q (List.mem_cons_of_mem p hq)
    rw [List.length_cons, width_cons]
    omega

/-! ### No NUL -/

lemma normalize_ne_nul (c : Char) : normalize c ≠ '\x00' := by
  unfold normalize
  split_ifs with hline hnul
  · decide
  · decide
  · exact hnul

lemma nul_notMem_decode (t : List Char) : '\x00' ∉ chars (decode t) := by
  fun_induction decode t with
  | case1 => simp
  | case2 r ih =>
    rw [chars_cons, List.mem_cons, not_or]
    exact ⟨by decide, ih⟩
  | case3 c r _ ih =>
    rw [chars_cons, List.mem_cons, not_or]
    exact ⟨(normalize_ne_nul c).symm, ih⟩

lemma scalar_ne_nul (n : ℕ) : scalar n ≠ '\x00' := by
  unfold scalar
  split_ifs with h
  · intro heq
    have hval : (Char.ofNat n).toNat = n := by
      rw [Char.ofNat, dif_pos h.2]
      rfl
    rw [heq] at hval
    exact h.1 hval.symm
  · decide

lemma escape_ne_nul (h : '\x00' ∉ cs) : (escape cs).char ≠ '\x00' := by
  unfold escape
  rcases cs with _ | ⟨c, r⟩
  · decide
  · rcases hexDigits (c :: r) with _ | ⟨d, ds⟩
    · exact fun heq => h (heq ▸ List.mem_cons_self)
    · exact scalar_ne_nul _

lemma nul_notMem_spelled (hadvances : Advances Piece.size next)
    (hnext : ∀ cs p, '\x00' ∉ cs → next cs = some p → p.decoded ≠ some '\x00')
    (h : '\x00' ∉ cs) : '\x00' ∉ spelled (pieces next cs) := by
  intro hmem
  obtain ⟨p, hp, hnul⟩ := List.mem_filterMap.mp hmem
  obtain ⟨k, hk⟩ := exists_of_mem_pieces hadvances hp
  exact hnext _ p (fun hdrop => h (List.mem_of_mem_drop hdrop)) hk hnul

lemma decoded_ne_nul {c : Char} {r : List Char} (h : '\x00' ∉ c :: r) :
    (Piece.mk (some c) 1).decoded ≠ some '\x00' ∧ (escapePiece r).decoded ≠ some '\x00' := by
  rw [List.mem_cons, not_or] at h
  refine ⟨fun heq => h.1 (Option.some.inj heq).symm, fun heq => ?_⟩
  exact escape_ne_nul h.2 (Option.some.inj heq)

lemma namePiece?_ne_nul (cs : List Char) (p : Piece) (h : '\x00' ∉ cs)
    (hp : namePiece? cs = some p) : p.decoded ≠ some '\x00' := by
  rcases cs with _ | ⟨c, r⟩
  · cases hp
  · obtain ⟨hself, hescape⟩ := decoded_ne_nul h
    rw [namePiece?] at hp
    split_ifs at hp
    · cases hp
      exact hself
    · cases hp
      exact hescape

lemma stringPiece?_ne_nul (quote : Char) (cs : List Char) (p : Piece) (h : '\x00' ∉ cs)
    (hp : stringPiece? quote cs = some p) : p.decoded ≠ some '\x00' := by
  rcases cs with _ | ⟨c, r⟩
  · cases hp
  · obtain ⟨hself, hescape⟩ := decoded_ne_nul h
    simp only [stringPiece?] at hp
    split_ifs at hp
    · rcases r with _ | ⟨d, r⟩
      · cases hp
        simp
      · simp only at hp
        split_ifs at hp
        · cases hp
          simp
        · cases hp
          exact hescape
    · cases hp
      exact hself

lemma urlTextPiece?_ne_nul (cs : List Char) (p : Piece) (h : '\x00' ∉ cs)
    (hp : urlTextPiece? cs = some p) : p.decoded ≠ some '\x00' := by
  rcases cs with _ | ⟨c, r⟩
  · cases hp
  · obtain ⟨hself, hescape⟩ := decoded_ne_nul h
    rw [urlTextPiece?] at hp
    split_ifs at hp
    · cases hp
      exact hescape
    · cases hp
      exact hself

lemma urlTextPiece?_advances : Advances Piece.size urlTextPiece? := by
  intro cs p hp
  rcases cs with _ | ⟨c, r⟩
  · cases hp
  · have hescape := escape_size_le r
    rw [urlTextPiece?] at hp
    split_ifs at hp
    · cases hp
      rw [escapePiece_size, List.length_cons]
      omega
    · cases hp
      simp

/-- `out` is spelled from `cs`: it is no longer, and has a NUL only if there is one. -/
structure SpelledFrom (cs out : List Char) : Prop where
  length_le : out.length ≤ cs.length
  nul_notMem : '\x00' ∉ cs → '\x00' ∉ out

lemma SpelledFrom.of_drop {out : List Char} {k : ℕ} (h : SpelledFrom (cs.drop k) out) :
    SpelledFrom cs out := by
  refine ⟨Nat.le_trans h.length_le ?_, fun hnul => h.nul_notMem fun hmem => ?_⟩
  · rw [List.length_drop]
    exact Nat.sub_le _ _
  · exact hnul (List.mem_of_mem_drop hmem)

lemma spelledFrom_nameText (cs : List Char) : SpelledFrom cs (nameText cs) :=
  ⟨length_spelled_le namePiece?_advances cs,
    nul_notMem_spelled namePiece?_advances namePiece?_ne_nul⟩

lemma spelledFrom_stringText (cs : List Char) : SpelledFrom cs (stringText cs) := by
  rcases cs with _ | ⟨quote, r⟩
  · exact ⟨Nat.le_refl 0, id⟩
  · have hbody : SpelledFrom r (stringText (quote :: r)) :=
      ⟨length_spelled_le (stringPiece?_advances quote) r,
        nul_notMem_spelled (stringPiece?_advances quote) (stringPiece?_ne_nul quote)⟩
    exact SpelledFrom.of_drop (k := 1) hbody

lemma spelledFrom_urlText (cs : List Char) : SpelledFrom cs (urlText cs) := by
  rw [urlText, List.drop_drop]
  refine SpelledFrom.of_drop ⟨length_spelled_le urlTextPiece?_advances _, ?_⟩
  exact nul_notMem_spelled urlTextPiece?_advances urlTextPiece?_ne_nul

/-! ### Names, strings and urls in a part of a text -/

lemma stringPieces_take {quote : Char} (h : extent (stringPieces quote cs) ≤ n) :
    stringPieces quote (cs.take n) = stringPieces quote cs := by
  refine pieces_take (stringPiece?_advances quote) (fun u v p hv hp hle => ?_) (fun u k hnone => ?_)
    h
  · have hsame := stringPiece?_append hv (.inl rfl) quote u p hp hle
    rwa [List.append_nil] at hsame
  · rcases u with _ | ⟨c, r⟩
    · rwa [List.take_nil]
    · cases k with
      | zero => rfl
      | succ k =>
        rw [stringPiece?_eq_none_iff] at hnone
        rwa [List.take_succ_cons, stringPiece?_eq_none_iff]

lemma urlTextPiece?_eq_none_iff (c : Char) (r : List Char) :
    urlTextPiece? (c :: r) = none ↔ c = ')' ∨ isBlank c := by
  rw [urlTextPiece?]
  split_ifs with hslash hend
  · simp [hslash, isBlank]
  · simp [hend]
  · simp [hend]

lemma urlTextPieces_take (h : extent (pieces urlTextPiece? cs) ≤ n) :
    pieces urlTextPiece? (cs.take n) = pieces urlTextPiece? cs := by
  refine pieces_take urlTextPiece?_advances (fun u v p hv hp hle => ?_) (fun u k hnone => ?_) h
  · have hpos := (urlTextPiece?_advances hp).1
    rcases u with _ | ⟨c, u⟩
    · rw [List.length_nil] at hle
      omega
    · rw [List.cons_append, urlTextPiece?] at hp
      rw [urlTextPiece?]
      split_ifs at hp ⊢
      · cases hp
        have hsame := escapePiece_append hv (w := []) (.inl rfl) hle
        rw [← hsame, List.append_nil]
      · exact hp
  · rcases u with _ | ⟨c, r⟩
    · rwa [List.take_nil]
    · cases k with
      | zero => rfl
      | succ k =>
        rw [urlTextPiece?_eq_none_iff] at hnone
        rwa [List.take_succ_cons, urlTextPiece?_eq_none_iff]

lemma urlTextPiece?_of_urlPiece? {p : Piece} (h : urlPiece? cs = some p) :
    urlTextPiece? cs = some p := by
  rcases cs with _ | ⟨c, r⟩
  · cases h
  · rw [urlPiece?] at h
    rw [urlTextPiece?]
    split_ifs at h with hbreak hslash hescape
    · rwa [if_pos hslash]
    · rw [if_neg hslash, if_neg, h]
      rintro (rfl | hblank)
      · exact hbreak (by decide)
      · exact hbreak (by simp [isUrlBreak, hblank])

end Text

namespace Lexeme

/-! ### Lexemes and what they say -/

/-- What a lexeme says is read from its own code points alone. -/
def Contains (l : Lexeme) (cs : List Char) : Prop :=
  ∀ read, l.kind.reader? = some read → read (cs.take l.size) = read cs

lemma contains_of_none {l : Lexeme} {cs : List Char} (h : l.kind.reader? = none) :
    l.Contains cs := by
  intro read hread
  rw [h] at hread
  cases hread

lemma string_contains (quote : Char) (r : List Char) : (string quote r).Contains (quote :: r) := by
  have hstring : ∀ n, extent (stringPieces quote r) ≤ n →
      stringText ((quote :: r).take (1 + n)) = stringText (quote :: r) := by
    intro n hn
    rw [Nat.add_comm, List.take_succ_cons, stringText, stringText, stringPieces_take hn]
  rcases hd : r.drop (extent (stringPieces quote r)) with _ | ⟨c, t⟩
  · rw [string_of_nil hd]
    rintro read ⟨⟩
    exact hstring _ (Nat.le_refl _)
  · rw [string_of_cons hd]
    split_ifs
    · rintro read ⟨⟩
      exact hstring _ (Nat.le_succ _)
    · rintro read ⟨⟩
      exact hstring _ (Nat.le_refl _)

lemma nameText_take_behind (c : Char) (r : List Char) :
    nameText (((c :: r).take (1 + nameSize r)).drop 1) = nameText ((c :: r).drop 1) := by
  rw [Nat.add_comm, List.take_succ_cons, List.drop_succ_cons, List.drop_zero, List.drop_succ_cons,
    List.drop_zero]
  exact (nameText_take_of_le (Nat.le_refl _) (by simp)).2

lemma hash_contains (c : Char) (r : List Char) : (hash r).Contains (c :: r) := by
  rintro read hread
  obtain rfl : (fun cs => nameText (cs.drop 1)) = read := by
    simp only [hash] at hread
    split_ifs at hread
    · exact Option.some.inj hread
    · exact Option.some.inj hread
  exact nameText_take_behind c r

lemma single_contains (c : Char) (r : List Char) : (single c).Contains (c :: r) := by
  have hkinds : ∀ k ∈ TokenKind.delim :: punctuation.map Prod.snd,
      k = .delim ∨ k.reader?.isNone := by decide
  rcases hkinds _ (single_kind c) with hdelim | hnone
  · rintro read hread
    rw [hdelim] at hread
    cases hread
    rw [single_size]
    rfl
  · exact contains_of_none (Option.isNone_iff_eq_none.mp hnone)

/-- A url that ends with a parenthesis or with the text is read up to there, or up to the blanks
before. -/
lemma urlTextPieces_of_end {body : List Char}
    (h : ∀ c ∈ (body.drop (urlSize body)).head?, c = ')') :
    pieces urlTextPiece? body = urlPieces body := by
  refine pieces_congr urlPiece?_advances urlTextPiece?_advances
    (fun _ _ hp => urlTextPiece?_of_urlPiece? hp) ?_
  rw [urlSize, ← List.drop_drop] at h
  change urlTextPiece? (body.drop (extent (urlPieces body))) = none
  rcases hstop : body.drop (extent (urlPieces body)) with _ | ⟨c, r⟩
  · rfl
  · rw [urlTextPiece?_eq_none_iff]
    by_cases hblank : isBlank c
    · exact .inr hblank
    · have hzero : blankSize (c :: r) = 0 := by simp [blankSize, hblank]
      rw [hstop, hzero] at h
      exact .inl (h c rfl)

lemma blankSize_take {cs : List Char} {n : ℕ} (h : blankSize cs ≤ n) :
    blankSize (cs.take n) = blankSize cs := by
  unfold blankSize at h ⊢
  rw [← List.take_takeWhile, List.length_take, Nat.min_eq_right h]

lemma urlText_take {cs r : List Char} {k : ℕ} (hname : cs.drop (nameSize cs) = '(' :: r)
    (hk : extent (pieces urlTextPiece? (r.drop (blankSize r))) ≤ k) :
    urlText (cs.take (nameSize cs + 1 + blankSize r + k)) = urlText cs := by
  have hcut : (cs.take (nameSize cs + 1 + blankSize r + k)).drop (nameSize cs) =
      '(' :: r.take (blankSize r + k) := by
    rw [List.drop_take, hname, Nat.add_assoc, Nat.add_assoc, Nat.add_sub_cancel_left,
      Nat.add_comm 1, List.take_succ_cons]
  have hsize : nameSize (cs.take (nameSize cs + 1 + blankSize r + k)) = nameSize cs := by
    rw [Nat.add_assoc]
    exact (nameText_take_paren hname _).1
  have hrest : cs.drop (nameSize cs + 1) = r := by
    rw [← List.drop_drop, hname]
    rfl
  have hrest' : (cs.take (nameSize cs + 1 + blankSize r + k)).drop (nameSize cs + 1) =
      r.take (blankSize r + k) := by
    rw [← List.drop_drop, hcut]
    rfl
  have hbody : (r.take (blankSize r + k)).drop (blankSize r) = (r.drop (blankSize r)).take k := by
    rw [List.drop_take, Nat.add_sub_cancel_left]
  simp only [urlText, hsize, hrest, hrest', blankSize_take (Nat.le_add_right _ k), hbody,
    urlTextPieces_take hk]

lemma url_contains {cs r : List Char} (hname : cs.drop (nameSize cs) = '(' :: r) :
    (url (nameSize cs + 1 + blankSize r) (r.drop (blankSize r))).Contains cs := by
  rcases hd : (r.drop (blankSize r)).drop (urlSize (r.drop (blankSize r))) with _ | ⟨c, t⟩
  · rw [url_of_nil hd]
    have hlength := congrArg List.length hname
    rw [List.drop_eq_nil_iff, List.length_drop] at hd
    rw [List.length_drop, List.length_cons] at hlength
    rintro read -
    rw [List.take_of_length_le (by simp only; omega)]
  · rw [url_of_cons hd]
    split_ifs with hparen
    · subst hparen
      rintro read ⟨⟩
      refine urlText_take (k := urlSize (r.drop (blankSize r)) + 1) hname ?_
      rw [urlTextPieces_of_end (by simp [hd])]
      exact Nat.le_succ_of_le (extent_urlPieces_le _)
    · exact contains_of_none rfl

lemma named_contains (cs : List Char) : (named cs).Contains cs := by
  have hself : nameText (cs.take (nameSize cs)) = nameText cs :=
    (nameText_take_of_le (Nat.le_refl _) (by simp)).2
  rcases hd : cs.drop (nameSize cs) with _ | ⟨c, r⟩
  · rw [named_of_nil hd]
    rintro read ⟨⟩
    exact hself
  · rw [named_of_cons hd]
    split_ifs with hother hword
    · rintro read ⟨⟩
      exact hself
    · obtain rfl : c = '(' := not_not.mp hother
      unfold called
      split_ifs
      · rintro read ⟨⟩
        exact (nameText_take_paren hd 0).2
      · exact url_contains hd
    · obtain rfl : c = '(' := not_not.mp hother
      rintro read ⟨⟩
      exact (nameText_take_paren hd 0).2

end Lexeme

lemma mark_contains (c : Char) (r : List Char) : (mark c r).Contains (c :: r) := by
  unfold mark
  split_ifs
  · exact Lexeme.contains_of_none rfl
  · exact Lexeme.contains_of_none rfl
  · exact Lexeme.hash_contains c r
  · rintro read ⟨⟩
    exact Lexeme.nameText_take_behind c r
  · exact Lexeme.single_contains c r

/-- **What a lexeme says** is in it. -/
theorem lex_contains (cs : List Char) : (lex cs).Contains cs := by
  rcases cs with _ | ⟨c, r⟩
  · exact Lexeme.contains_of_none rfl
  have hform := lexForm c r
  generalize lex (c :: r) = l at hform ⊢
  cases hform with
  | blanks _ => exact Lexeme.contains_of_none rfl
  | string _ => exact Lexeme.string_contains c r
  | numeric _ =>
    refine Lexeme.contains_of_none ?_
    have hkinds : ∀ k ∈ [TokenKind.dimension, .percentage, .number], k.reader?.isNone := by decide
    exact Option.isNone_iff_eq_none.mp (hkinds _ (Lexeme.numeric_kind _))
  | cdc _ => exact Lexeme.contains_of_none rfl
  | named _ _ => exact Lexeme.named_contains (c :: r)
  | mark => exact mark_contains c r

/-! ### Every value -/

/-- The kinds of tokens that say something. -/
def TokenKind.telling : List TokenKind :=
  [.ident, .function, .atKeyword, .hashUnrestricted, .hashId, .string, .badString, .url, .delim]

lemma TokenKind.isSome_reader?_iff (kind : TokenKind) :
    kind.reader?.isSome ↔ kind ∈ telling := by
  cases kind <;> decide

lemma TokenKind.reader?_spelledFrom {kind : TokenKind} {read : List Char → List Char}
    (h : kind.reader? = some read) {cs : List Char} (hcs : cs ≠ []) : SpelledFrom cs (read cs) := by
  cases kind with
  | ident | function =>
    cases h
    exact spelledFrom_nameText cs
  | atKeyword | hashId | hashUnrestricted =>
    cases h
    exact (spelledFrom_nameText _).of_drop
  | string | badString =>
    cases h
    exact spelledFrom_stringText cs
  | url =>
    cases h
    exact spelledFrom_urlText cs
  | delim =>
    cases h
    obtain ⟨c, r, rfl⟩ := List.exists_cons_of_ne_nil hcs
    exact ⟨by simp, fun hnul hmem => hnul (List.mem_cons.mpr (.inl (List.mem_singleton.mp hmem)))⟩
  | _ => cases h

namespace Source

variable {s : Source}

lemma length_rest_le (s : Source) : s.rest.length ≤ s.text.length := by
  rw [length_rest, ahead]
  refine Nat.le_trans (length_le_width fun p hp => width_decode_pos hp) ?_
  rw [width_decode, List.length_drop]
  exact Nat.sub_le _ _

/-- The text of the first token, read on its own. -/
def alone (s : Source) : Source := ⟨(s.text.drop s.location).take (s.token.stop - s.location), 0⟩

lemma alone_rest : s.alone.rest = s.rest.take (lex s.rest).size := by
  rw [alone, rest, ahead, List.drop_zero, token_stop, locationAfter, Nat.add_sub_cancel_left, ahead,
    decode_take_width, chars_take]
  rfl

lemma alone_length (h : s.location ≤ s.text.length) :
    s.alone.text.length = s.token.stop - s.location := by
  have hstop := token_stop_le h
  rw [alone, List.length_take, List.length_drop]
  omega

/-- **The value of the first token** is that of its text alone, no longer than this and without
NUL; there is one if the kind is one that says something. -/
lemma valueAt_alone (h : s.location < s.text.length) :
    ∃ value, s.valueAt s.token.kind s.location = .ok value ∧
      s.alone.valueAt s.token.kind 0 = .ok value ∧
      (value.isSome ↔ s.token.kind ∈ TokenKind.telling) ∧
      ∀ cs ∈ value, cs.length ≤ s.token.stop - s.location ∧ '\x00' ∉ cs := by
  have htelling := s.token.kind.isSome_reader?_iff
  rcases hread : s.token.kind.reader? with _ | read
  · rw [hread] at htelling
    refine ⟨none, ?_, ?_, htelling, ?_⟩
    · rw [valueAt, hread]
    · rw [valueAt, hread]
    · intro cs hcs
      cases hcs
  · have hlocal : read s.alone.rest = read s.rest := by
      rw [alone_rest]
      exact lex_contains s.rest read hread
    have hrest : s.alone.rest ≠ [] := by
      have hlt := lt_token_stop h
      rw [Ne, rest_eq_nil_iff, alone_length (Nat.le_of_lt h)]
      exact Nat.not_le.mpr (Nat.sub_pos_of_lt hlt)
    obtain ⟨hlength, hnul⟩ := TokenKind.reader?_spelledFrom hread hrest
    rw [hread] at htelling
    refine ⟨some (read s.rest), valueAt_location (Nat.le_of_lt h) hread, ?_, htelling, ?_⟩
    · rw [← hlocal]
      exact valueAt_location (s := s.alone) (Nat.zero_le _) hread
    · intro cs hcs
      obtain rfl := Option.mem_some.mp hcs
      rw [← hlocal, ← alone_length (Nat.le_of_lt h)]
      exact ⟨Nat.le_trans hlength (length_rest_le _), hnul (nul_notMem_decode _)⟩

/-- **What a token says is in it.** Each token of a text has a value, or is of a kind that says
nothing; the value is read alike from the text of the token alone; and it has no more characters
than the token takes, none of them NUL or a surrogate. -/
theorem values_are_local {text : List Char} (h : ofChars text = .ok s) {t : Token}
    (ht : t ∈ s.tokens) :
    ∃ part own value, s.slice t.start t.stop = .ok part ∧ ofChars part = .ok own ∧
      s.valueAt t.kind t.start = .ok value ∧ own.valueAt t.kind own.location = .ok value ∧
      (value.isSome ↔ t.kind ∈ TokenKind.telling) ∧
      ∀ cs ∈ value, cs.length ≤ t.stop - t.start ∧
        ∀ c ∈ cs, c ≠ '\x00' ∧ (c.toNat < 0xD800 ∨ 0xDFFF < c.toNat) := by
  obtain ⟨rfl, hascii⟩ := ofChars_eq_ok_iff.mp h
  obtain ⟨hinside, hthere⟩ := standsIn_of_mem_tokens ht
  obtain ⟨value, hwhole, hown, htelling, hvalue⟩ := valueAt_alone (s := ⟨text, t.start⟩) hinside
  have hstop := token_stop_le (s := ⟨text, t.start⟩) (Nat.le_of_lt hinside)
  rw [hthere] at hwhole hown htelling hvalue hstop
  refine ⟨(⟨text, t.start⟩ : Source).alone.text, (⟨text, t.start⟩ : Source).alone, value, ?_, ?_,
    hwhole, hown, htelling, ?_⟩
  · rw [alone, hthere]
    exact if_pos ⟨Nat.le_add_right _ _, hstop⟩
  · refine ofChars_eq_ok_iff.mpr ⟨rfl, fun c hc => hascii c ?_⟩
    exact List.mem_of_mem_drop (List.mem_of_mem_take hc)
  · intro cs hcs
    obtain ⟨hlength, hnul⟩ := hvalue cs hcs
    refine ⟨hlength, fun c hc => ⟨?_, c.valid.imp id And.left⟩⟩
    rintro rfl
    exact hnul hc

/-- A string that a carriage return breaks off behind an escaped newline: alone it is a string
without an end, and says the same. -/
theorem values_are_local_broken :
    ∃ part own, (⟨['"', '\\', '\r', '\n', 'a', '\r', 'b'], 0⟩ : Source).slice 0 5 = .ok part ∧
      ofChars part = .ok own ∧ own.valueAt .badString own.location = .ok (some ['a']) := by
  obtain ⟨part, own, value, hpart, hown, hwhole, halone, -⟩ := values_are_local
    (rfl : ofChars ['"', '\\', '\r', '\n', 'a', '\r', 'b'] = .ok _)
    (t := ⟨.badString, ⟨0, 5⟩, some .badString⟩) (by decide)
  have hvalue : (⟨['"', '\\', '\r', '\n', 'a', '\r', 'b'], 0⟩ : Source).valueAt .badString 0 =
      .ok (some ['a']) := by decide
  obtain rfl : some ['a'] = value := Except.ok.inj (hvalue.symm.trans hwhole)
  exact ⟨part, own, hpart, hown, halone⟩

end Source

end Stylesheet
