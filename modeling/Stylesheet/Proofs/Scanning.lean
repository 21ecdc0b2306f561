import Stylesheet.Proofs.Numerals
import Stylesheet.Proofs.Scanner

/-!
The scanner finds the lexemes of the text. Each of its loops passes over the units that the text is
cut into, and leaves the source where they end; what it does there is what the unit behind them
says. It never goes back to a place that it has not passed, so no step back fails.
-/

namespace Stylesheet

open Stylesheet.Text

/-! ### The comparison with `url` -/

namespace UrlMatcher

lemma push_of_failed (k : ℕ) (c : Char) : push ⟨k, true⟩ c = ⟨k, true⟩ := by
  unfold push
  split <;> rfl

lemma not_spells_of_failed (k : ℕ) (name : List Char) :
    (name.foldl push ⟨k, true⟩).spells = false := by
  induction name with
  | nil => rfl
  | cons c name ih => rw [List.foldl_cons, push_of_failed, ih]

lemma spells_foldl {k : ℕ} (hk : k ≤ keyword.length) (name : List Char) :
    (name.foldl push ⟨k, false⟩).spells = sameWord name (keyword.drop k) := by
  induction name generalizing k with
  | nil =>
    have hcases : k = 0 ∨ k = 1 ∨ k = 2 ∨ k = 3 := by
      change k ≤ 3 at hk
      omega
    rcases hcases with rfl | rfl | rfl | rfl <;> rfl
  | cons c name ih =>
    rw [List.foldl_cons]
    rcases Nat.lt_or_ge k keyword.length with hlt | hge
    · rw [List.drop_eq_getElem_cons hlt, sameWord, push, List.getElem?_eq_getElem hlt]
      by_cases hsame : sameLetter c keyword[k]
      · simp only [hsame, Bool.not_false, Bool.and_self, if_true, Bool.true_and]
        exact ih hlt
      · simp only [hsame, Bool.and_false, if_false, Bool.false_eq_true, Bool.false_and]
        exact not_spells_of_failed k name
    · rw [List.drop_of_length_le hge, push, List.getElem?_eq_none hge]
      exact not_spells_of_failed k name

/-- **Matching `url`**: fed with a name, the matcher says whether the name is that word. -/
theorem spells_iff (name : List Char) :
    (name.foldl push fresh).spells ↔ name.map Char.toLower = ['u', 'r', 'l'] := by
  rw [fresh, spells_foldl (Nat.zero_le _), sameWord_iff]
  rfl

end UrlMatcher

namespace Source

variable {s r : Source} {c : Char} {t : List Char}

/-! ### Steps -/

lemma advance_of_nil (h : s.rest = []) : s.advance = (none, s) := by
  rw [advance, peek_eq_none_iff.mpr h, skip_of_nil h]

lemma startsEscape_lookahead (hs : s.rest = c :: t) :
    startsEscape (c :: (s.skip 1).lookahead 1) = startsEscape (c :: t) := by
  rw [lookahead_eq, skip_one_rest hs]
  rcases t with _ | ⟨d, t⟩ <;> rfl

lemma startsNumber_lookahead (hs : s.rest = c :: t) :
    startsNumber (c :: (s.skip 1).lookahead 2) = startsNumber (c :: t) := by
  rw [lookahead_eq, skip_one_rest hs]
  rcases t with _ | ⟨d, _ | ⟨e, t⟩⟩ <;> rfl

lemma startsName_lookahead (hs : s.rest = c :: t) :
    startsName (c :: (s.skip 1).lookahead 2) = startsName (c :: t) := by
  rw [lookahead_eq, skip_one_rest hs]
  exact startsName_take (c :: t)

lemma consumeEscape_skip (hs : s.rest = '\\' :: t) :
    (s.skip 1).consumeEscape = ((escape t).char, s.skip (escapePiece t).size) := by
  rw [consumeEscape_eq, readEscape_eq hs]

lemma seek_skip (h : s.rest ≠ []) (n : ℕ) : (s.skip n).seek s.location = .ok s := by
  rw [Ne, rest_eq_nil_iff, Nat.not_le] at h
  exact if_pos (Nat.le_of_lt h)

/-! ### Loops -/

/-- A loop that goes on behind every unit comes to the place where they end. -/
lemma loop_eq {α : Type} {next : List Char → Option Piece} (hadvances : Advances Piece.size next)
    {f : Source → α} (hstep : ∀ s p, next s.rest = some p → f s = f (s.skip p.size))
    (s : Source) : ∃ e, f s = f e ∧ e = s.skip (extent (pieces next s.rest)) ∧
      e.rest = s.rest.drop (extent (pieces next s.rest)) ∧ next e.rest = none := by
  refine ⟨s.skip (extent (pieces next s.rest)), ?_, rfl, s.skip_rest _, ?_⟩
  · induction hcs : s.rest using units_induction hadvances generalizing s with
    | stop cs hnone hnil =>
      rw [pieces, hnil]
      exact congrArg f (skip_zero s).symm
    | unit cs p hp hunits ih =>
      have hpieces : pieces next cs = p :: pieces next (cs.drop p.size) := hunits
      rw [hstep s p (by rw [hcs, hp]), ih (s.skip p.size) (by rw [skip_rest, hcs]), skip_skip,
        hpieces, extent]
  · rw [skip_rest]
    exact next_drop_extent hadvances s.rest

lemma passWhile_eq (p : Char → Bool) (s : Source) :
    s.passWhile p = s.skip (s.rest.takeWhile p).length := by
  induction hs : s.rest generalizing s with
  | nil =>
    rw [passWhile, advance_of_nil hs]
    exact (skip_zero s).symm
  | cons c t ih =>
    rw [passWhile, advance_eq hs, List.takeWhile_cons]
    by_cases hc : p c
    · simp only [hc, if_true, ih _ (skip_one_rest hs), skip_skip, List.length_cons, Nat.add_comm 1]
    · simp only [hc]
      exact (skip_zero s).symm

lemma consumeNameChar_of_none (h : namePiece? s.rest = none) : s.consumeNameChar = (none, s) := by
  rw [consumeNameChar_eq, readNameChar, h]

lemma consumeNameChar_of_some {n : ℕ} (h : namePiece? s.rest = some ⟨some c, n⟩) :
    s.consumeNameChar = (some c, s.skip n) := by
  rw [consumeNameChar_eq, readNameChar, h]

/-- **The name** is compared and passed in one go. -/
lemma matchUrl_eq (s : Source) (m : UrlMatcher) :
    s.matchUrl m = ((nameText s.rest).foldl .push m, s.skip (nameSize s.rest)) := by
  induction hcs : s.rest using units_induction namePiece?_advances generalizing s m with
  | stop cs hnone _ =>
    rw [matchUrl, consumeNameChar_of_none (hcs ▸ hnone), nameText_of_none hnone,
      Lexeme.nameSize_eq_zero hnone, skip_zero]
    rfl
  | unit cs p hp _ ih =>
    obtain ⟨c, hc⟩ := exists_of_namePiece? hp
    rw [hc] at hp
    rw [matchUrl, consumeNameChar_of_some (hcs ▸ hp), nameText_of_some hp, nameSize_of_some hp]
    change (s.skip p.size).matchUrl (m.push c) = _
    rw [ih _ _ (by rw [skip_rest, hcs]), skip_skip]
    rfl

lemma passName_eq (s : Source) : s.passName = s.skip (nameSize s.rest) := by
  have hstep : ∀ (s : Source) (p : Piece), namePiece? s.rest = some p →
      s.passName = (s.skip p.size).passName := by
    intro s p hp
    obtain ⟨c, hc⟩ := exists_of_namePiece? hp
    rw [passName, consumeNameChar_of_some (hp.trans (congrArg some hc))]
  obtain ⟨e, hloop, he, -, hstop⟩ := loop_eq namePiece?_advances hstep s
  rw [hloop, passName, consumeNameChar_of_none hstop]
  exact he

lemma passFraction_eq (s : Source) : s.passFraction = s.skip (fractionSize s.rest) := by
  have htake : startsFraction (s.rest.take 2) = startsFraction s.rest := by
    rcases s.rest with _ | ⟨b, _ | ⟨c, r⟩⟩ <;> rfl
  rw [passFraction, lookahead_eq, htake, fractionSize]
  split_ifs
  · rw [passWhile_eq]
    change (s.skip 1).skip ((s.skip 1).rest.takeWhile Char.isDigit).length = _
    rw [skip_rest, skip_skip]
    rfl
  · exact (skip_zero s).symm

lemma not_isDigit_of_isSign (h : isSign c) : ¬ c.isDigit := by
  simp only [isSign, Bool.or_eq_true, beq_iff_eq] at h
  rcases h with rfl | rfl <;> decide

/-- The sign of an exponent is no digit, so it does not matter which of them is looked for first. -/
lemma passExponent_eq (s : Source) : s.passExponent = s.skip (exponentSize s.rest) := by
  rw [passExponent, lookahead_eq]
  rcases hs : s.rest with _ | ⟨c, _ | ⟨d, t⟩⟩
  · exact (skip_zero s).symm
  · simp [exponentSize, startsDigits, skip_zero]
  · have hhead : ∀ u, startsDigits (d :: u) = d.isDigit := fun _ => rfl
    have htail : startsDigits (t.take 1) = startsDigits t := by
      rcases t with _ | ⟨e, t⟩ <;> rfl
    have hpass : ∀ n, (s.skip n).passWhile Char.isDigit =
        s.skip (n + digitsSize ((c :: d :: t).drop n)) := by
      intro n
      rw [passWhile_eq, skip_rest, hs, skip_skip]
      rfl
    by_cases hsign : isSign d
    · have hdigit := not_isDigit_of_isSign hsign
      simp only [exponentSize, signSize, List.take_succ_cons, advance, hhead, List.head?_cons,
        Option.any_some, List.tail_cons, htail, hsign, hdigit, skip_skip, hpass, Nat.reduceAdd,
        List.drop_succ_cons, List.drop_zero, false_or, true_and, if_true, Bool.false_eq_true,
        if_false]
      split_ifs
      · rfl
      · exact (skip_zero s).symm
    · simp only [exponentSize, signSize, List.take_succ_cons, advance, hhead, List.head?_cons,
        Option.any_some, hsign, List.drop_zero, Bool.false_eq_true, false_and, or_false, if_false,
        Nat.add_zero]
      by_cases hmark : (c = 'e' ∨ c = 'E') ∧ d.isDigit
      · rw [if_pos hmark, if_pos hmark, if_pos hmark.2]
        exact hpass 1
      · rw [if_neg hmark, if_neg hmark]
        exact (skip_zero s).symm

/-- **Numbers** are passed part by part. -/
lemma passNumber_eq (s : Source) : s.passNumber = s.skip (numberSize s.rest) := by
  have hsign : (if s.peek.any isSign then s.advance.2 else s) = s.skip (signSize s.rest) := by
    rcases hs : s.rest with _ | ⟨c, t⟩
    · rw [peek_eq_none_iff.mpr hs]
      exact (skip_zero s).symm
    · rw [peek_of_rest hs, signSize, Option.any_some]
      split_ifs
      · rfl
      · exact (skip_zero s).symm
  rw [passNumber, hsign, passWhile_eq, passFraction_eq, passExponent_eq]
  simp only [skip_skip, skip_rest]
  rfl

/-- **A comment** is passed up to its terminator. -/
lemma passComment_eq (s : Source) : s.passComment =
    match commentRest? s.rest with
    | some n => (true, s.skip n)
    | none => (false, s.skip s.rest.length) := by
  induction hs : s.rest generalizing s with
  | nil =>
    rw [passComment, advance_of_nil hs]
    exact Prod.ext rfl (skip_of_nil hs _).symm
  | cons c t ih =>
    have hrest := skip_one_rest hs
    have hpeek : (s.skip 1).peek = t.head? := by rw [peek, hrest]
    rw [passComment, advance_eq hs]
    by_cases hend : c = '*' ∧ t.head? = some '/'
    · obtain ⟨rfl, hslash⟩ := hend
      obtain ⟨t', rfl⟩ := List.head?_eq_some_iff.mp hslash
      simp [hpeek, commentRest?, advance, skip_skip]
    · have hnext : commentRest? (c :: t) = (commentRest? t).map (1 + ·) := by
        rw [commentRest?]
        rintro t' rfl rfl
        exact hend ⟨rfl, rfl⟩
      simp only [hpeek, hend, if_false]
      rw [ih _ hrest, hnext]
      rcases commentRest? t with _ | n
      · simp [skip_skip, Nat.add_comm 1]
      · simp [skip_skip]

/-- **What is left of a url** is passed up to its parenthesis. -/
lemma passRemnant_eq (s : Source) : s.passRemnant =
    s.skip (extent (remnantPieces s.rest) +
      min 1 (s.rest.drop (extent (remnantPieces s.rest))).length) := by
  have hstep : ∀ (s : Source) (p : Piece), remnantPiece? s.rest = some p →
      s.passRemnant = (s.skip p.size).passRemnant := by
    intro s p hp
    rcases hs : s.rest with _ | ⟨c, t⟩
    · rw [hs] at hp
      cases hp
    · rw [hs, remnantPiece?] at hp
      rw [passRemnant, advance_eq hs]
      split_ifs at hp with hend hescape
      · obtain rfl := eq_slash_of_startsEscape hescape
        cases hp
        simp only [startsEscape_lookahead hs, hescape, consumeEscape_skip hs, if_true]
        rfl
      · cases hp
        simp only [startsEscape_lookahead hs, hescape, hend]
        rfl
  obtain ⟨e, hloop, he, hrest, hstop⟩ := loop_eq remnantPiece?_advances hstep s
  rw [hloop, ← skip_skip, remnantPieces, ← he, ← hrest]
  rcases hd : e.rest with _ | ⟨c, t⟩
  · rw [passRemnant, advance_of_nil hd, skip_of_nil hd]
  · rw [hd, remnantPiece?_eq_none_iff] at hstop
    rw [passRemnant, advance_eq hd, hstop]
    simp

lemma readLiteral_eq {literal : List Char} (h : ∀ c ∈ literal, Plain c) (s : Source) :
    s.readLiteral literal =
      if literal.isPrefixOf s.rest then (true, s.skip literal.length) else (false, s) := by
  have hiff : literal.isPrefixOf (s.text.drop s.location) ↔ literal.isPrefixOf s.rest := by
    rw [List.isPrefixOf_iff_prefix, List.isPrefixOf_iff_prefix]
    exact (prefix_chars_decode_iff h).symm
  rw [readLiteral]
  by_cases hthere : literal.isPrefixOf (s.text.drop s.location)
  · have hwidth := width_take_plain h (List.isPrefixOf_iff_prefix.mp hthere)
    rw [if_pos hthere, if_pos (hiff.mp hthere), skip, locationAfter, ahead, hwidth]
  · rw [if_neg hthere, if_neg (mt hiff.mpr hthere)]

end Source

namespace Lexeme

lemma badUrl_cons {c : Char} {t : List Char} (hc : c ≠ ')') (hescape : ¬ startsEscape (c :: t))
    (n : ℕ) : badUrl n (c :: t) = badUrl (n + 1) t := by
  have hpiece : remnantPiece? (c :: t) = some ⟨some c, 1⟩ := by
    rw [remnantPiece?, if_neg hc, if_neg hescape]
  have hpieces : remnantPieces (c :: t) = ⟨some c, 1⟩ :: remnantPieces t :=
    units_of_some remnantPiece?_advances hpiece
  simp only [badUrl, hpieces, extent, Nat.add_comm 1, List.drop_succ_cons, Nat.add_assoc]

/-- Where the body of a url is read, its end is looked for behind that. -/
lemma url_drop (n : ℕ) (cs : List Char) : url n cs =
    url (n + extent (urlPieces cs)) (cs.drop (extent (urlPieces cs))) := by
  have hbody : urlPieces (cs.drop (extent (urlPieces cs))) = [] :=
    units_of_none _ _ (next_drop_extent urlPiece?_advances cs)
  simp only [url, hbody, extent, List.drop_drop, Nat.zero_add, Nat.add_zero, Nat.add_assoc]

lemma urlSize_of_none {cs : List Char} (h : urlPiece? cs = none) : urlSize cs = blankSize cs := by
  have hbody : urlPieces cs = [] := units_of_none _ _ h
  rw [urlSize, hbody, extent, List.drop_zero, Nat.zero_add]

end Lexeme

/-! ### First code points -/

lemma exists_comment_iff {cs : List Char} :
    (∃ a, comment? cs = some a) ↔ cs.take 2 = ['/', '*'] := by
  constructor
  · rintro ⟨a, ha⟩
    obtain ⟨t, rfl⟩ := exists_of_comment? ha
    rfl
  · intro hopen
    rw [← List.take_append_drop 2 cs, hopen]
    exact exists_comment _

/-- The code points that have a rule of their own. -/
def openers : List Char :=
  ['\n', '\t', ' ', '"', '\'', '#', '+', '.', '-', '/', '<', '@', '\\'] ++
    Lexeme.punctuation.map Prod.fst

lemma lex_other {c : Char} (t : List Char) (hc : c ∉ openers) : lex (c :: t) =
    if c.isDigit then .numeric (c :: t)
    else if isNameStart c then .named (c :: t)
    else ⟨.delim, 1, none⟩ := by
  simp only [openers, Lexeme.punctuation, List.map_cons, List.map_nil, List.cons_append,
    List.nil_append, List.mem_cons, List.not_mem_nil, or_false, not_or] at hc
  have hnumber : startsNumber (c :: t) = c.isDigit := by
    simp [startsNumber, startsDigits, startsFraction, isSign, hc]
  have hname : startsName (c :: t) = isNameStart c := by simp [startsName, hc]
  have hdash : ('-' == c) = false := by simp [Ne.symm, hc]
  have hmark : mark c t = ⟨.delim, 1, none⟩ := by
    have hless : ('<' == c) = false := by simp [Ne.symm, hc]
    have hslash : ('/' == c) = false := by simp [Ne.symm, hc]
    have hlookup : Lexeme.punctuation.lookup c = none := by
      simp [List.lookup_eq_none_iff, Lexeme.punctuation, hc]
    simp [mark, List.isPrefixOf, Lexeme.single, hless, hslash, hlookup, hc]
  split_ifs with hdigit hstart
  · exact lex_of_startsNumber (hnumber.trans hdigit)
  · exact lex_of_startsName (hname.trans hstart) (by simp [List.isPrefixOf, hdash])
  · rw [lex_of_mark (by simp [isBlank, hc]) (by simp [isQuote, hc]) (by rwa [hnumber])
      (by simp [List.isPrefixOf, hdash]) (by rwa [hname]), hmark]

/-! ### Tokens -/

namespace Scanner

variable {sc : Scanner} {s : Source} {c : Char} {t : List Char} {quote : Char} {n : ℕ}

/-- What is returned when the lexeme `l` is found at `s`. -/
def found (sc : Scanner) (s : Source) (l : Lexeme) : TokenKind × Scanner :=
  (l.kind, { sc with
    source := s.skip l.size
    errors := sc.errors ++ (l.error.map fun kind => ⟨kind, sc.start⟩).toList })

@[simp] lemma moveTo_source (sc : Scanner) (s : Source) : (sc.moveTo s).source = s := rfl

@[simp] lemma moveTo_moveTo (sc : Scanner) (s r : Source) :
    (sc.moveTo s).moveTo r = sc.moveTo r := rfl

@[simp] lemma error_moveTo (sc : Scanner) (kind : LexErrorKind) (s : Source) :
    (sc.error kind).moveTo s = (sc.moveTo s).error kind := rfl

@[simp] lemma found_moveTo (sc : Scanner) (s r : Source) (l : Lexeme) :
    (sc.moveTo r).found s l = sc.found s l := rfl

lemma found_of_none (sc : Scanner) (s : Source) (kind : TokenKind) (n : ℕ) :
    sc.found s ⟨kind, n, none⟩ = (kind, sc.moveTo (s.skip n)) := by
  simp [found, moveTo]

lemma ok_found (sc : Scanner) (s : Source) (kind : TokenKind) (n : ℕ) :
    (return (kind, sc.moveTo (s.skip n)) : Except SourceError (TokenKind × Scanner)) =
      .ok (sc.found s ⟨kind, n, none⟩) := by
  rw [found_of_none]
  rfl

lemma found_of_some (sc : Scanner) (s : Source) (kind : TokenKind) (n : ℕ) (e : LexErrorKind) :
    sc.found s ⟨kind, n, some e⟩ = (kind, (sc.moveTo (s.skip n)).error e) := rfl

lemma string_step {p : Piece} (hp : stringPiece? quote s.rest = some p) :
    (sc.moveTo s).string quote = (sc.moveTo (s.skip p.size)).string quote := by
  rcases hs : s.rest with _ | ⟨c, t⟩
  · rw [hs] at hp
    cases hp
  · have hrest := Source.skip_one_rest hs
    simp only [hs, stringPiece?] at hp
    rw [string, moveTo_source, Source.advance_eq hs]
    split_ifs at hp with hend hslash
    · rw [not_or] at hend
      subst hslash
      rcases t with _ | ⟨d, t⟩
      · cases hp
        simp only [hend, Source.peek_eq_none_iff.mpr hrest]
        rfl
      · simp only at hp
        split_ifs at hp with hline
        · cases hp
          simp only [hend, Source.peek_of_rest hrest, hline]
          simp [Source.advance, Source.skip_skip]
        · cases hp
          simp only [hend, Source.peek_of_rest hrest, hline, Source.consumeEscape_skip hs]
          simp
    · rw [not_or] at hend
      cases hp
      simp only [hend, hslash]
      simp

/-- **Strings** are read up to their quote or their newline, to which the scanner goes back. -/
lemma string_eq (hs : s.rest = quote :: t) :
    (sc.moveTo (s.skip 1)).string quote = .ok (sc.found s (.string quote t)) := by
  obtain ⟨e, hloop, he, hrest, hstop⟩ := Source.loop_eq (stringPiece?_advances quote)
    (f := fun s => (sc.moveTo s).string quote) (fun s p hp => string_step hp) (s.skip 1)
  rw [Source.skip_one_rest hs, ← stringPieces] at he hrest
  rw [Source.skip_skip] at he
  rw [hloop]
  rcases hd : e.rest with _ | ⟨c, u⟩
  · rw [Lexeme.string_of_nil (hrest ▸ hd), found_of_some, ← he, string, moveTo_source,
      Source.advance_of_nil hd]
    rfl
  · rw [hd, stringPiece?_eq_none_iff] at hstop
    rw [Lexeme.string_of_cons (hrest ▸ hd), string, moveTo_source, Source.advance_eq hd]
    by_cases hc : c = quote
    · simp only [hc, if_true, found_of_none, ← Source.skip_skip, ← he]
      rfl
    · have hback := Source.seek_skip (s := e) (by rw [hd]; exact List.cons_ne_nil c u) 1
      obtain rfl := hstop.resolve_left hc
      simp only [hc, if_true, if_false, hback, found_of_some, ← he]
      rfl

/-- **What is left of a url** is thrown away. -/
lemma badUrl_eq {r : Source} (hr : r = s.skip n) :
    (sc.moveTo r).badUrl = sc.found s (.badUrl n r.rest) := by
  simp only [badUrl, Lexeme.badUrl, found_of_some, error_moveTo, moveTo_moveTo, moveTo_source,
    Source.passRemnant_eq, hr, Source.skip_skip, Nat.add_assoc]

lemma url_step {p : Piece} (hp : urlPiece? s.rest = some p) :
    (sc.moveTo s).url = (sc.moveTo (s.skip p.size)).url := by
  rcases hs : s.rest with _ | ⟨c, t⟩
  · rw [hs] at hp
    cases hp
  · rw [hs, urlPiece?] at hp
    rw [url, moveTo_source, Source.advance_eq hs]
    split_ifs at hp with hbreak hslash hescape
    · obtain rfl := hslash
      cases hp
      have hblank : ¬ isBlank '\\' := by decide
      have hquote : ¬ isQuote '\\' := by decide
      simp only [Source.startsEscape_lookahead hs, hescape, Source.consumeEscape_skip hs, hblank,
        hquote]
      rfl
    · cases hp
      simp only [isUrlBreak, Bool.or_eq_true, beq_iff_eq, not_or] at hbreak
      obtain ⟨⟨⟨⟨hclose, hopen⟩, hquote⟩, hblank⟩, hcontrol⟩ := hbreak
      have hescape : ¬ startsEscape (c :: t) := mt eq_slash_of_startsEscape hslash
      simp only [Source.startsEscape_lookahead hs, hescape, hclose, hopen, hquote, hblank,
        hcontrol, hslash]
      rfl

lemma url_stop (sc : Scanner) (hs : s.rest = c :: t) (hstop : urlPiece? (c :: t) = none)
    (hclose : c ≠ ')') (hblank : ¬ isBlank c) :
    ¬ startsEscape (c :: t) ∧ (sc.moveTo s).url = (sc.moveTo (s.skip 1)).badUrl := by
  have hescape : ¬ startsEscape (c :: t) := by
    intro h
    obtain rfl := eq_slash_of_startsEscape h
    rw [urlPiece?, if_neg (by decide), if_pos rfl, if_pos h] at hstop
    cases hstop
  refine ⟨hescape, ?_⟩
  rw [url, moveTo_source, Source.advance_eq hs]
  by_cases hopen : isQuote c ∨ c = '('
  · simp only [hclose, hblank, hopen]
    rfl
  · have hwrong : c = '\\' ∨ isNonPrintable c := by
      by_contra h
      rw [not_or] at hopen h
      have hbreak : ¬ isUrlBreak c := by simp [isUrlBreak, hclose, hblank, hopen, h]
      rw [urlPiece?, if_neg hbreak, if_neg h.1] at hstop
      cases hstop
    simp only [hclose, hblank, hopen, Source.startsEscape_lookahead hs, hescape, hwrong]
    rfl

/-- Where its body ends, a parenthesis or the end of the text must follow, perhaps behind blanks. -/
lemma url_stopped {e : Source} (he : e = s.skip n) (hstop : urlPiece? e.rest = none) :
    (sc.moveTo e).url = sc.found s (.url n e.rest) := by
  have hsize := Lexeme.urlSize_of_none hstop
  have hskip : s.skip (n + Lexeme.urlSize e.rest) = e.skip (blankSize e.rest) := by
    rw [hsize, he, Source.skip_skip]
  have hafter : (e.skip (blankSize e.rest)).rest = e.rest.drop (Lexeme.urlSize e.rest) := by
    rw [Source.skip_rest, hsize]
  rcases hd : e.rest with _ | ⟨c, t⟩
  · rw [hd] at hskip
    rw [Lexeme.url_of_nil List.drop_nil, found_of_some, hskip, url, moveTo_source,
      Source.advance_of_nil hd]
    simp only [blankSize, List.takeWhile_nil, List.length_nil, Source.skip_zero]
    rfl
  rw [hd] at hskip hsize hafter hstop
  by_cases hblank : isBlank c
  · -- what stands behind the blanks decides
    have hclose : c ≠ ')' := by
      rintro rfl
      cases hblank
    have hpass : (e.skip 1).passWhile isBlank = e.skip (blankSize (c :: t)) := by
      rw [Source.passWhile_eq, Source.skip_one_rest hd, Source.skip_skip, blankSize,
        List.takeWhile_cons_of_pos hblank, List.length_cons, Nat.add_comm 1]
    rw [url, moveTo_source, Source.advance_eq hd]
    simp only [hclose, hblank, hpass, if_true, if_false]
    rcases hu : (c :: t).drop (Lexeme.urlSize (c :: t)) with _ | ⟨d, u⟩
    · rw [hu] at hafter
      rw [Lexeme.url_of_nil hu, found_of_some, hskip, Source.peek_eq_none_iff.mpr hafter]
      rfl
    · rw [hu] at hafter
      rw [Lexeme.url_of_cons hu, Source.peek_of_rest hafter]
      by_cases hparen : d = ')'
      · simp only [hparen, if_true, found_of_none, ← Source.skip_skip, hskip]
        rfl
      · simp only [hparen, if_false, badUrl_eq hskip.symm, hafter, found_moveTo]
  · have hzero : blankSize (c :: t) = 0 := by simp [blankSize, hblank]
    rw [hzero] at hsize
    rw [Lexeme.url_of_cons (by rw [hsize, List.drop_zero]), hsize, Nat.add_zero]
    by_cases hclose : c = ')'
    · rw [if_pos hclose, found_of_none, ← Source.skip_skip, ← he, url, moveTo_source,
        Source.advance_eq hd]
      simp only [hclose, if_true]
      rfl
    · obtain ⟨hescape, hbad⟩ := url_stop sc hd hstop hclose hblank
      have hnext : e.skip 1 = s.skip (n + 1) := by rw [he, Source.skip_skip]
      rw [if_neg hclose, Lexeme.badUrl_cons hclose hescape, hbad, badUrl_eq hnext,
        Source.skip_one_rest hd]

/-- **Urls** are read up to their parenthesis, or given up where they go wrong. -/
lemma url_eq {r : Source} (hr : r = s.skip n) :
    (sc.moveTo r).url = sc.found s (.url n r.rest) := by
  obtain ⟨e, hloop, he, hrest, hstop⟩ := Source.loop_eq urlPiece?_advances
    (f := fun s => (sc.moveTo s).url) (fun s p hp => url_step hp) r
  rw [← urlPieces] at he hrest
  rw [hr, Source.skip_skip, ← hr] at he
  rw [hloop, Lexeme.url_drop, ← hrest]
  exact url_stopped he hstop

/-- **Names** are read once, with the comparison on the way; from a quote behind `url(` the scanner
goes back to its parenthesis. -/
lemma identLike_eq (sc : Scanner) (s : Source) :
    (sc.moveTo s).identLike = .ok (sc.found s (.named s.rest)) := by
  have hname := Source.matchUrl_eq s .fresh
  have hword : ((nameText s.rest).foldl UrlMatcher.push .fresh).spells =
      sameWord (nameText s.rest) ['u', 'r', 'l'] := UrlMatcher.spells_foldl (Nat.zero_le _) _
  simp only [identLike, moveTo_source, hname, hword]
  generalize he : s.skip (nameSize s.rest) = e
  have hrest : e.rest = s.rest.drop (nameSize s.rest) := by rw [← he, Source.skip_rest]
  rcases hd : e.rest with _ | ⟨c, t⟩
  · rw [Lexeme.named_of_nil (hrest ▸ hd), Source.peek_eq_none_iff.mpr hd, found_of_none, he]
    rfl
  rw [Lexeme.named_of_cons (hrest ▸ hd), Source.peek_of_rest hd]
  by_cases hopen : c = '('
  · have hrest := Source.skip_one_rest hd
    have harguments : e.skip 1 = s.skip (nameSize s.rest + 1) := by rw [← Source.skip_skip, he]
    have hblanks : (e.skip 1).passWhile isBlank = (e.skip 1).skip (blankSize t) := by
      rw [Source.passWhile_eq, hrest]
      rfl
    have hbehind : ((e.skip 1).skip (blankSize t)).peek = (t.drop (blankSize t)).head? := by
      rw [Source.peek, Source.skip_rest, hrest]
    simp only [hopen, Source.advance, Lexeme.called, hblanks, hbehind, moveTo_moveTo, ne_eq,
      not_true_eq_false, if_false]
    by_cases hmatch : sameWord (nameText s.rest) ['u', 'r', 'l']
    · by_cases hquote : (t.drop (blankSize t)).head?.any isQuote
      · -- the blanks are given back
        have ht : (e.skip 1).rest ≠ [] := by
          rw [hrest]
          rintro rfl
          cases hquote
        have hback := Source.seek_skip ht (blankSize t)
        rw [harguments] at hback
        simp only [hmatch, hquote, Bool.not_true, Bool.false_eq_true, if_true, if_false,
          found_of_none, harguments, hback]
        rfl
      · have hurl : (e.skip 1).skip (blankSize t) = s.skip (nameSize s.rest + 1 + blankSize t) := by
          rw [harguments, Source.skip_skip]
        simp only [hmatch, hquote, Bool.not_true, Bool.false_eq_true, if_true, if_false,
          url_eq hurl, Source.skip_rest, hrest]
        rfl
    · simp only [hmatch, Bool.not_false, if_true, Bool.false_eq_true, if_false, found_of_none,
        harguments]
      rfl
  · simp only [Option.some.injEq, hopen, ne_eq, not_false_eq_true, if_true, found_of_none, he]
    rfl

lemma numeric_eq (sc : Scanner) (s : Source) :
    (sc.moveTo s).numeric = sc.found s (.numeric s.rest) := by
  have hhead : ((s.rest.drop (numberSize s.rest)).take 3).head? =
      (s.rest.drop (numberSize s.rest)).head? := by rw [List.head?_take, if_neg (by decide)]
  simp only [numeric, Lexeme.numeric, moveTo_source, Source.passNumber_eq, Source.lookahead_eq,
    Source.skip_rest, startsName_take, Source.passName_eq, Source.skip_skip, Source.advance, hhead]
  split_ifs <;> simp only [found_of_none, moveTo_moveTo]

lemma found_comments {m : ℕ} (ha : comment? s.rest = some ⟨m, true⟩) :
    sc.found s (.comments s.rest) = sc.found (s.skip m) (.comments (s.skip m).rest) := by
  simp only [found, Lexeme.comments, commentRun_of_some ha, runSize, List.all_cons, Bool.true_and,
    Source.skip_rest, Source.skip_skip]

lemma found_unclosed (hs : s.rest = '/' :: '*' :: t) (hopen : commentRest? t = none) :
    sc.found s (.comments s.rest) =
      (.comments, (sc.moveTo (s.skip (2 + t.length))).error .unterminatedComment) := by
  have hfirst : comment? s.rest = some ⟨2 + t.length, false⟩ := by rw [hs, comment?, hopen]
  have hbehind : s.rest.drop (2 + t.length) = [] := by
    rw [List.drop_eq_nil_iff, hs, List.length_cons, List.length_cons, Nat.add_comm 2]
  have hrun : commentRun s.rest = [⟨2 + t.length, false⟩] := by
    rw [commentRun_of_some hfirst, hbehind, commentRun_of_none rfl]
  rw [Lexeme.comments, hrun]
  rfl

/-- **Comments** that touch are read as one token; the last one may be open. -/
lemma comments_eq (sc : Scanner) (s : Source) {a : Comment} (ha : comment? s.rest = some a) :
    (sc.moveTo (s.skip 1)).comments = sc.found s (.comments s.rest) := by
  induction hcs : s.rest using units_induction comment?_advances generalizing s a with
  | stop cs hnone _ =>
    rw [hcs, hnone] at ha
    cases ha
  | unit cs b hb _ ih =>
    obtain ⟨t, rfl⟩ := exists_of_comment? hb
    have hbody : (s.skip 1).advance.2 = s.skip 2 := Source.skip_skip s 1 1
    have hinside : (s.skip 2).rest = t := by
      rw [Source.skip_rest, hcs]
      rfl
    rw [comments, moveTo_source, hbody, Source.passComment_eq, hinside, ← hcs]
    rcases hrest : commentRest? t with _ | n
    · rw [found_unclosed hcs hrest]
      simp only [Source.skip_skip]
      rfl
    · obtain rfl : b = ⟨2 + n, true⟩ := by
        rw [comment?, hrest] at hb
        exact (Option.some.inj hb).symm
      rw [found_comments (hcs ▸ hb)]
      simp only [Source.skip_skip, Source.lookahead_eq]
      generalize hr : s.skip (2 + n) = r at ih ⊢
      have hbehind : r.rest = ('/' :: '*' :: t).drop (2 + n) := by rw [← hr, Source.skip_rest, hcs]
      split_ifs with hnext
      · obtain ⟨b, hb⟩ := exists_comment_iff.mpr hnext
        exact (ih r hb hbehind).trans (by rw [hbehind])
      · have hnone : comment? r.rest = none :=
          Option.eq_none_iff_forall_ne_some.mpr fun b hb => hnext (exists_comment_iff.mp ⟨b, hb⟩)
        simp only [Lexeme.comments, commentRun_of_none hnone, runSize]
        rw [List.all_nil, if_pos rfl, found_of_none, Source.skip_zero]
        rfl

lemma reconsume_eq (hs : sc.source.rest = c :: t) (hstart : sc.start = sc.source.location) :
    (sc.moveTo (sc.source.skip 1)).reconsume = .ok sc := by
  have hback := Source.seek_skip (s := sc.source) (by rw [hs]; exact List.cons_ne_nil c t) 1
  rw [← hstart] at hback
  change ((sc.source.skip 1).seek sc.start >>= _) = _
  rw [hback]
  rfl

lemma reconsume_numeric (hs : sc.source.rest = c :: t) (hstart : sc.start = sc.source.location) :
    (do
      let again ← (sc.moveTo (sc.source.skip 1)).reconsume
      return again.numeric) = Except.ok (sc.found sc.source (.numeric (c :: t))) := by
  rw [reconsume_eq hs hstart, ← hs, ← numeric_eq]
  rfl

lemma reconsume_identLike (hs : sc.source.rest = c :: t) (hstart : sc.start = sc.source.location) :
    (do
      let again ← (sc.moveTo (sc.source.skip 1)).reconsume
      again.identLike) = Except.ok (sc.found sc.source (.named (c :: t))) := by
  rw [reconsume_eq hs hstart, ← hs]
  exact identLike_eq sc sc.source

lemma tokenKind_blank (hs : sc.source.rest = c :: t) (hblank : isBlank c) :
    sc.tokenKind = .ok (sc.found sc.source (lex (c :: t))) := by
  have hread : sc.tokenKind =
      .ok (.whitespace, sc.moveTo ((sc.source.skip 1).passWhile isBlank)) := by
    have hcases := hblank
    simp only [isBlank, Bool.or_eq_true, beq_iff_eq] at hcases
    rw [tokenKind, Source.advance_eq hs]
    rcases hcases with (rfl | rfl) | rfl <;> rfl
  have hsize : blankSize (c :: t) = (t.takeWhile isBlank).length + 1 := by
    rw [blankSize, List.takeWhile_cons_of_pos hblank, List.length_cons]
  rw [hread, lex_of_blank hblank, found_of_none, Source.passWhile_eq, Source.skip_one_rest hs,
    Source.skip_skip, hsize, Nat.add_comm]

lemma tokenKind_quote (hs : sc.source.rest = c :: t) (hquote : isQuote c) :
    sc.tokenKind = .ok (sc.found sc.source (lex (c :: t))) := by
  have hread : sc.tokenKind = (sc.moveTo (sc.source.skip 1)).string c := by
    rw [tokenKind, Source.advance_eq hs]
    rcases isQuote_iff.mp hquote with rfl | rfl <;> rfl
  have hblank : ¬ isBlank c := by
    rcases isQuote_iff.mp hquote with rfl | rfl <;> decide
  rw [hread, lex_of_quote hblank hquote]
  exact string_eq hs

lemma tokenKind_punctuation {kind : TokenKind} (hs : sc.source.rest = c :: t)
    (hc : (c, kind) ∈ Lexeme.punctuation) :
    sc.tokenKind = .ok (sc.found sc.source (lex (c :: t))) := by
  have hread : sc.tokenKind = .ok (kind, sc.moveTo (sc.source.skip 1)) ∧
      lex (c :: t) = ⟨kind, 1, none⟩ := by
    rw [tokenKind, Source.advance_eq hs]
    simp only [Lexeme.punctuation, List.mem_cons, Prod.mk.injEq, List.not_mem_nil, or_false] at hc
    rcases hc with ⟨rfl, rfl⟩ | ⟨rfl, rfl⟩ | ⟨rfl, rfl⟩ | ⟨rfl, rfl⟩ | ⟨rfl, rfl⟩ | ⟨rfl, rfl⟩ |
      ⟨rfl, rfl⟩ | ⟨rfl, rfl⟩ | ⟨rfl, rfl⟩ <;> exact ⟨rfl, rfl⟩
  rw [hread.1, hread.2, found_of_none]

lemma tokenKind_hash (hs : sc.source.rest = '#' :: t) :
    sc.tokenKind = .ok (sc.found sc.source (lex ('#' :: t))) := by
  have hlex : lex ('#' :: t) =
      if '#' = '#' ∧ (namePiece? t).isSome then .hash t else ⟨.delim, 1, none⟩ := rfl
  rw [tokenKind, Source.advance_eq hs, hlex, Lexeme.hash]
  simp only [Source.lookahead_eq, Source.skip_one_rest hs, continuesName_take, startsName_take,
    Source.passName_eq, Source.skip_skip, true_and]
  split_ifs <;> exact ok_found ..

lemma tokenKind_sign (hs : sc.source.rest = c :: t) (hstart : sc.start = sc.source.location)
    (hc : c = '+' ∨ c = '.') : sc.tokenKind = .ok (sc.found sc.source (lex (c :: t))) := by
  have hread : sc.tokenKind = (if startsNumber (c :: (sc.source.skip 1).lookahead 2) then do
        let again ← (sc.moveTo (sc.source.skip 1)).reconsume
        return again.numeric
      else return (.delim, sc.moveTo (sc.source.skip 1))) ∧
      lex (c :: t) = if startsNumber (c :: t) then .numeric (c :: t) else ⟨.delim, 1, none⟩ := by
    rw [tokenKind, Source.advance_eq hs]
    rcases hc with rfl | rfl <;> exact ⟨rfl, rfl⟩
  rw [hread.1, hread.2, Source.startsNumber_lookahead hs, reconsume_numeric hs hstart]
  split_ifs
  · rfl
  · exact ok_found ..

lemma tokenKind_dash (hs : sc.source.rest = '-' :: t) (hstart : sc.start = sc.source.location) :
    sc.tokenKind = .ok (sc.found sc.source (lex ('-' :: t))) := by
  have hlex : lex ('-' :: t) =
      if startsNumber ('-' :: t) then .numeric ('-' :: t)
      else if ['-', '>'].isPrefixOf t then ⟨.cdc, 3, none⟩
      else if startsName ('-' :: t) then .named ('-' :: t)
      else ⟨.delim, 1, none⟩ := rfl
  have hliteral := Source.readLiteral_eq (List.forall_iff_forall_mem.mp
    (by decide : List.Forall Plain ['-', '>'])) (sc.source.skip 1)
  rw [Source.skip_one_rest hs] at hliteral
  rw [tokenKind, Source.advance_eq hs, hlex]
  simp only [Source.startsNumber_lookahead hs, Source.startsName_lookahead hs,
    reconsume_numeric hs hstart, reconsume_identLike hs hstart, hliteral]
  by_cases hdigits : startsNumber ('-' :: t)
  · rw [if_pos hdigits, if_pos hdigits]
  rw [if_neg hdigits, if_neg hdigits]
  by_cases hcdc : ['-', '>'].isPrefixOf t
  · simp only [hcdc, if_true, Source.skip_skip]
    exact ok_found ..
  · simp only [hcdc, if_false, Bool.false_eq_true]
    split_ifs
    · rfl
    · exact ok_found ..

lemma tokenKind_slash (hs : sc.source.rest = '/' :: t) :
    sc.tokenKind = .ok (sc.found sc.source (lex ('/' :: t))) := by
  have hlex : lex ('/' :: t) =
      if ['*'].isPrefixOf t then .comments ('/' :: t) else ⟨.delim, 1, none⟩ := rfl
  have hopen : ['*'].isPrefixOf t ↔ t.head? = some '*' := by
    rw [List.isPrefixOf_iff_prefix, List.singleton_prefix_iff_head?_eq_some]
  rw [tokenKind, Source.advance_eq hs, hlex]
  simp only [Source.peek, Source.skip_one_rest hs, hopen]
  split_ifs with hstar
  · obtain ⟨u, rfl⟩ := List.head?_eq_some_iff.mp hstar
    obtain ⟨a, ha⟩ := exists_comment u
    rw [← hs] at ha ⊢
    exact congrArg Except.ok (comments_eq sc sc.source ha)
  · exact ok_found ..

lemma tokenKind_less (hs : sc.source.rest = '<' :: t) :
    sc.tokenKind = .ok (sc.found sc.source (lex ('<' :: t))) := by
  have hlex : lex ('<' :: t) =
      if ['!', '-', '-'].isPrefixOf t then ⟨.cdo, 4, none⟩ else ⟨.delim, 1, none⟩ := rfl
  have hliteral := Source.readLiteral_eq (List.forall_iff_forall_mem.mp
    (by decide : List.Forall Plain ['!', '-', '-'])) (sc.source.skip 1)
  rw [Source.skip_one_rest hs] at hliteral
  rw [tokenKind, Source.advance_eq hs, hlex]
  simp only [hliteral]
  by_cases hcdo : ['!', '-', '-'].isPrefixOf t
  · simp only [hcdo, if_true, Source.skip_skip]
    exact ok_found ..
  · simp only [hcdo, if_false, Bool.false_eq_true]
    exact ok_found ..

lemma tokenKind_at (hs : sc.source.rest = '@' :: t) :
    sc.tokenKind = .ok (sc.found sc.source (lex ('@' :: t))) := by
  have hlex : lex ('@' :: t) =
      if '@' = '@' ∧ startsName t then ⟨.atKeyword, 1 + nameSize t, none⟩
      else ⟨.delim, 1, none⟩ := rfl
  rw [tokenKind, Source.advance_eq hs, hlex]
  simp only [Source.lookahead_eq, Source.skip_one_rest hs, startsName_take, Source.passName_eq,
    Source.skip_skip, true_and]
  split_ifs <;> exact ok_found ..

lemma tokenKind_backslash (hs : sc.source.rest = '\\' :: t)
    (hstart : sc.start = sc.source.location) :
    sc.tokenKind = .ok (sc.found sc.source (lex ('\\' :: t))) := by
  have hlex : lex ('\\' :: t) = if startsEscape ('\\' :: t) then .named ('\\' :: t)
      else ⟨.delim, 1, some .invalidEscape⟩ := rfl
  rw [tokenKind, Source.advance_eq hs, hlex]
  simp only [Source.startsEscape_lookahead hs, reconsume_identLike hs hstart]
  split_ifs
  · rfl
  · exact (congrArg Except.ok (sc.found_of_some ..)).symm

lemma tokenKind_other (hs : sc.source.rest = c :: t) (hstart : sc.start = sc.source.location)
    (hc : c ∉ openers) : sc.tokenKind = .ok (sc.found sc.source (lex (c :: t))) := by
  have hread : sc.tokenKind = (if c.isDigit then do
        let again ← (sc.moveTo (sc.source.skip 1)).reconsume
        return again.numeric
      else if isNameStart c then do
        let again ← (sc.moveTo (sc.source.skip 1)).reconsume
        again.identLike
      else return (.delim, sc.moveTo (sc.source.skip 1))) := by
    rw [tokenKind, Source.advance_eq hs]
    dsimp only
    split <;> rename_i heq <;> cases heq
    all_goals first | rfl | exact absurd (by decide) hc
  rw [hread, lex_other t hc, reconsume_numeric hs hstart, reconsume_identLike hs hstart]
  split_ifs
  · rfl
  · rfl
  · exact ok_found ..

/-- **The first code point** says which token it is. -/
theorem tokenKind_eq (hstart : sc.start = sc.source.location) :
    sc.tokenKind = .ok (sc.found sc.source (lex sc.source.rest)) := by
  rcases hs : sc.source.rest with _ | ⟨c, t⟩
  · rw [tokenKind, Source.advance_of_nil hs, lex, found_of_none, Source.skip_zero]
    rfl
  by_cases hc : c ∈ openers
  · simp only [openers, List.mem_append, List.mem_map, List.mem_cons, List.not_mem_nil,
      or_false] at hc
    rcases hc with (rfl | rfl | rfl | rfl | rfl | rfl | rfl | rfl | rfl | rfl | rfl | rfl | rfl) |
      ⟨⟨c, kind⟩, hpair, rfl⟩
    · exact tokenKind_blank hs rfl
    · exact tokenKind_blank hs rfl
    · exact tokenKind_blank hs rfl
    · exact tokenKind_quote hs rfl
    · exact tokenKind_quote hs rfl
    · exact tokenKind_hash hs
    · exact tokenKind_sign hs hstart (.inl rfl)
    · exact tokenKind_sign hs hstart (.inr rfl)
    · exact tokenKind_dash hs hstart
    · exact tokenKind_slash hs
    · exact tokenKind_less hs
    · exact tokenKind_at hs
    · exact tokenKind_backslash hs hstart
    · exact tokenKind_punctuation hs hpair
  · exact tokenKind_other hs hstart hc

/-- **The scanner is the lexer**: it finds the same kind, ends at the same place and meets the same
error, and never fails. -/
theorem next_eq (sc : Scanner) :
    sc.next = .ok (sc.toLexer.next.1.kind, ⟨sc.toLexer.next.2, sc.source.location⟩) := by
  rw [next, tokenKind_eq rfl]
  rfl

/-- **Token after token**, the scanner reads what the lexer reads. -/
theorem run_eq (sc : Scanner) (n : ℕ) :
    ∃ start, sc.run n = .ok
      ((List.range n).map fun i => ((sc.toLexer.nth i).kind, (sc.toLexer.nth i).start),
        ⟨sc.toLexer.after n, start⟩) := by
  induction n generalizing sc with
  | zero => exact ⟨sc.start, rfl⟩
  | succ n ih =>
    obtain ⟨start, hrest⟩ := ih ⟨sc.toLexer.next.2, sc.source.location⟩
    refine ⟨start, ?_⟩
    rw [run, next_eq, ok_bind]
    dsimp only
    rw [hrest, ok_bind, List.range_succ_eq_map, List.map_cons, List.map_map, Lexer.after_succ]
    simp only [Function.comp_def, Nat.succ_eq_add_one, Lexer.nth_succ]
    rfl

end Scanner

end Stylesheet
