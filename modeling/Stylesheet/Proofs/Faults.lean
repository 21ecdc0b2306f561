import Stylesheet.Proofs.Contents
import Stylesheet.Proofs.Naming
import Stylesheet.Proofs.Report

/-!
What the errors of a lexer stand for. Reading a token adds an error just where the token is at
fault, and what is at fault can be seen from the text: a construct that was thrown away, one that the
text ends in, or a backslash in front of a newline. Nothing else that may be asked of a lexer adds
one, so the errors that were ever held are those of the tokens that were read.
-/

namespace Stylesheet.Text

/-! ### Hidden code points -/

/-- Whether `c` stands anywhere and is not hidden. A backslash hides the code point behind it. -/
def bare (c : Char) : List Char → Bool
  | [] => false
  | '\\' :: _ :: r => bare c r
  | d :: r => d == c || bare c r

variable {c d : Char} {u r : List Char}

lemma bare_cons (hd : d ≠ '\\') : bare c (d :: r) = (d == c || bare c r) := by
  rw [bare.eq_3]
  rintro e t rfl
  exact absurd rfl hd

lemma bare_append (h : ∀ d ∈ u, d ≠ c ∧ d ≠ '\\') : bare c (u ++ r) = bare c r := by
  induction u with
  | nil => rfl
  | cons d u ih =>
    obtain ⟨hother, hslash⟩ := h d List.mem_cons_self
    rw [List.cons_append, bare_cons hslash, ih fun e he => h e (List.mem_cons_of_mem d he)]
    simp [hother]

/-- A code point that no escape takes but as its only one. -/
def Outside (c : Char) : Prop := hexDigit? c = none ∧ ¬ isBlank c ∧ c ≠ '\\'

instance (c : Char) : Decidable (Outside c) := inferInstanceAs (Decidable (_ ∧ _ ∧ _))

lemma mem_take_blankSize {cs : List Char} {n : ℕ} (hn : n ≤ blankSize cs) {d : Char}
    (h : d ∈ cs.take n) : isBlank d := by
  have hall : (cs.take n).all isBlank := by
    refine Lexeme.all_isBlank_of_le (v := cs.drop n) ?_
    rw [List.take_append_drop, List.length_take]
    exact Nat.le_trans (Nat.min_le_left _ _) hn
  exact List.all_eq_true.mp hall d h

lemma mem_escape_tail {cs : List Char} {d : Char} (h : d ∈ (cs.take (escape cs).size).tail) :
    (hexDigit? d).isSome ∨ isBlank d := by
  rcases cs with _ | ⟨c, r⟩
  · cases h
  rcases hdigits : hexDigits (c :: r) with _ | ⟨v, vs⟩
  · simp [escape, hdigits] at h
  · have hsize : (escape (c :: r)).size =
        (v :: vs).length + min 1 (blankSize ((c :: r).drop (v :: vs).length)) := by
      simp only [escape, hdigits]
    have hmem := List.mem_of_mem_tail h
    rw [hsize, ← hdigits, List.take_add, List.mem_append] at hmem
    rcases hmem with hmem | hmem
    · have htake : (c :: r).take (hexDigits (c :: r)).length =
          ((c :: r).take 6).takeWhile fun c => (hexDigit? c).isSome := by
        rw [length_hexDigits]
        exact (List.prefix_iff_eq_take.mp
          ((List.takeWhile_prefix _).trans (List.take_prefix _ _))).symm
      rw [htake] at hmem
      have hdigit := List.mem_takeWhile_imp hmem
      exact .inl hdigit
    · exact .inr (mem_take_blankSize (Nat.min_le_right _ _) hmem)

/-- **An escape hides** what it takes. -/
lemma bare_escape (hc : Outside c) (r : List Char) :
    bare c (('\\' :: r).drop (escapePiece r).size) = bare c ('\\' :: r) := by
  obtain ⟨hdigit, hblank, hslash⟩ := hc
  rw [escapePiece_size, List.drop_succ_cons]
  rcases r with _ | ⟨d, t⟩
  · simp [bare, Ne.symm hslash]
  · have hpos : 0 < (escape (d :: t)).size := escape_size_pos (List.cons_ne_nil d t)
    obtain ⟨n, hn⟩ := Nat.exists_eq_add_one.mpr hpos
    have htaken : ∀ e ∈ t.take n, e ≠ c ∧ e ≠ '\\' := by
      intro e he
      have hclass : (hexDigit? e).isSome ∨ isBlank e := mem_escape_tail (by
        rw [hn, List.take_succ_cons]
        exact he)
      constructor
      · rintro rfl
        simp [hdigit, hblank] at hclass
      · rintro rfl
        revert hclass
        decide
    have hover := bare_append (r := t.drop n) htaken
    rw [List.take_append_drop] at hover
    rw [hn, List.drop_succ_cons, ← hover, bare]

/-- The pieces of a reader have no `c` in them, or hide it. -/
def Hides (c : Char) (next : List Char → Option Piece) : Prop :=
  ∀ cs p, next cs = some p → bare c (cs.drop p.size) = bare c cs

lemma Hides.drop_extent {next : List Char → Option Piece} (h : Hides c next)
    (hadvances : Advances Piece.size next) (cs : List Char) :
    bare c (cs.drop (extent (pieces next cs))) = bare c cs := by
  induction cs using units_induction hadvances with
  | stop cs _ hnil =>
    have hnone : pieces next cs = [] := hnil
    rw [hnone]
    rfl
  | unit cs p hp hunits ih =>
    have hnext : pieces next cs = p :: pieces next (cs.drop p.size) := hunits
    rw [hnext, extent, ← List.drop_drop, ih, h cs p hp]

lemma hides_namePiece? : Hides ')' namePiece? := by
  intro cs p hp
  rcases cs with _ | ⟨d, r⟩
  · cases hp
  · rw [namePiece?] at hp
    split_ifs at hp with hname hescape
    · cases hp
      have hplain : d ≠ ')' ∧ d ≠ '\\' := by
        constructor <;> (rintro rfl; revert hname; decide)
      exact (bare_append (u := [d]) (by simpa using hplain)).symm
    · cases hp
      obtain rfl := eq_slash_of_startsEscape hescape
      exact bare_escape (by decide) r

lemma hides_urlPiece? : Hides ')' urlPiece? := by
  intro cs p hp
  rcases cs with _ | ⟨d, r⟩
  · cases hp
  · rw [urlPiece?] at hp
    split_ifs at hp with hbreak hslash hescape
    · cases hp
      rw [hslash]
      exact bare_escape (by decide) r
    · cases hp
      have hparen : d ≠ ')' := by
        rintro rfl
        exact hbreak (by decide)
      exact (bare_append (u := [d]) (by simpa using ⟨hparen, hslash⟩)).symm

lemma outside_of_isQuote {quote : Char} (h : isQuote quote) : Outside quote := by
  rcases isQuote_iff.mp h with rfl | rfl <;> decide

lemma hides_stringPiece? {quote : Char} (hquote : isQuote quote) :
    Hides quote (stringPiece? quote) := by
  have houtside := outside_of_isQuote hquote
  intro cs p hp
  rcases cs with _ | ⟨d, r⟩
  · cases hp
  · simp only [stringPiece?] at hp
    split_ifs at hp with hend hslash
    · subst hslash
      rcases r with _ | ⟨e, t⟩
      · cases hp
        simp [bare, Ne.symm houtside.2.2]
      · simp only at hp
        split_ifs at hp
        · cases hp
          rfl
        · cases hp
          exact bare_escape houtside _
    · cases hp
      rw [not_or] at hend
      exact (bare_append (u := [d]) (by simpa using ⟨hend.1, hslash⟩)).symm

/-! ### Comments without a terminator -/

/-- Comments one after the other, the last of which has no terminator. -/
inductive Unclosed : List Char → Prop
  | last {body : List Char} (h : ¬ ['*', '/'] <:+: body) : Unclosed ('/' :: '*' :: body)
  | more {body r : List Char} (h : ¬ ['*', '/'] <:+: body) (rest : Unclosed r) :
    Unclosed (comment body ++ r)

lemma not_all_closed_iff {cs : List Char} :
    ¬ (commentRun cs).all Comment.closed ↔ Unclosed cs := by
  constructor
  · intro h
    induction cs using units_induction comment?_advances with
    | stop cs ha _ =>
      rw [commentRun_of_none ha] at h
      exact absurd rfl h
    | unit cs a ha _ ih =>
      rw [commentRun_of_some ha, List.all_cons, Bool.and_eq_true, not_and] at h
      rcases comment?_cases ha with ⟨body, r, hbody, rfl, rfl⟩ | ⟨body, hbody, rfl, -⟩
      · rw [List.drop_left] at h ih
        exact .more hbody (ih (h rfl))
      · exact .last hbody
  · intro h
    induction h with
    | @last body hbody =>
      rw [commentRun_of_some (comment?_unclosed hbody), List.all_cons]
      exact Bool.false_ne_true
    | @more body r hbody _ ih =>
      rw [commentRun_of_some (comment?_closed hbody r), List.all_cons, List.drop_left]
      exact ih

end Stylesheet.Text

namespace Stylesheet

open Stylesheet.Text

namespace Lexeme

/-! ### Errors of lexemes -/

lemma string_error {quote : Char} (hquote : isQuote quote) (r : List Char) :
    (string quote r).kind = .badString ∧ (string quote r).error = some .badString ∨
      (string quote r).kind = .string ∧
        ((string quote r).error = none ∧ bare quote r ∨
          (string quote r).error = some .unterminatedString ∧ ¬ bare quote r ∧
            (string quote r).size = r.length + 1) := by
  have hbare := (hides_stringPiece? hquote).drop_extent (stringPiece?_advances quote) r
  have hle := extent_pieces_le (stringPiece?_advances quote) r
  rcases hd : r.drop (extent (stringPieces quote r)) with _ | ⟨c, t⟩
  · have hall := List.drop_eq_nil_iff.mp hd
    rw [← stringPieces, hd] at hbare
    rw [← stringPieces] at hle
    rw [string_of_nil hd, ← hbare]
    refine .inr ⟨rfl, .inr ⟨rfl, by simp [bare], ?_⟩⟩
    change 1 + _ = _
    omega
  · rw [← stringPieces, hd] at hbare
    rw [string_of_cons hd, ← hbare]
    split_ifs with hc
    · subst hc
      refine .inr ⟨rfl, .inl ⟨rfl, ?_⟩⟩
      rw [bare_cons (outside_of_isQuote hquote).2.2]
      simp
    · exact .inl ⟨rfl, rfl⟩

lemma bare_drop_blanks (cs : List Char) : bare ')' (cs.drop (blankSize cs)) = bare ')' cs := by
  have hblanks : ∀ d ∈ cs.take (blankSize cs), d ≠ ')' ∧ d ≠ '\\' := by
    intro d hd
    have hblank := mem_take_blankSize (Nat.le_refl _) hd
    constructor <;> (rintro rfl; revert hblank; decide)
  have hover := bare_append (r := cs.drop (blankSize cs)) hblanks
  rw [List.take_append_drop] at hover
  exact hover.symm

lemma url_error (n : ℕ) (cs : List Char) :
    (url n cs).kind = .badUrl ∧ (url n cs).error = some .badUrl ∨
      (url n cs).kind = .url ∧
        ((url n cs).error = none ∧ bare ')' cs ∨
          (url n cs).error = some .unterminatedUrl ∧ ¬ bare ')' cs ∧
            (url n cs).size = n + cs.length) := by
  have hbare : bare ')' (cs.drop (urlSize cs)) = bare ')' cs := by
    rw [urlSize, ← List.drop_drop, bare_drop_blanks]
    exact hides_urlPiece?.drop_extent urlPiece?_advances cs
  have hle : urlSize cs ≤ cs.length := by
    have hbody : extent (urlPieces cs) ≤ cs.length := extent_pieces_le urlPiece?_advances cs
    have hblank := blankSize_le (cs.drop (extent (urlPieces cs)))
    rw [List.length_drop] at hblank
    rw [urlSize]
    omega
  rcases hd : cs.drop (urlSize cs) with _ | ⟨c, r⟩
  · have hall := List.drop_eq_nil_iff.mp hd
    rw [hd] at hbare
    rw [url_of_nil hd, ← hbare, Nat.le_antisymm hle hall]
    exact .inr ⟨rfl, .inr ⟨rfl, by simp [bare], rfl⟩⟩
  · rw [hd] at hbare
    rw [url_of_cons hd, ← hbare]
    split_ifs with hc
    · subst hc
      exact .inr ⟨rfl, .inl ⟨rfl, by simp [bare_cons]⟩⟩
    · exact .inl ⟨rfl, rfl⟩

lemma named_error (cs : List Char) :
    (named cs).kind ∈ [.ident, .function] ∧ (named cs).error = none ∨
      (named cs).kind = .badUrl ∧ (named cs).error = some .badUrl ∨
      (named cs).kind = .url ∧
        ((named cs).error = none ∧ bare ')' cs ∨
          (named cs).error = some .unterminatedUrl ∧ ¬ bare ')' cs ∧
            (named cs).size = cs.length) := by
  have hname := hides_namePiece?.drop_extent namePiece?_advances cs
  have hle := nameSize_le cs
  rw [← namePieces, ← nameSize] at hname
  rcases hd : cs.drop (nameSize cs) with _ | ⟨c, r⟩
  · rw [named_of_nil hd]
    exact .inl ⟨by simp, rfl⟩
  have hlength := congrArg List.length hd
  rw [List.length_drop, List.length_cons] at hlength
  rw [hd] at hname
  rw [named_of_cons hd, called]
  split_ifs with hother
  · exact .inl ⟨by simp, rfl⟩
  · exact .inl ⟨by simp, rfl⟩
  · obtain rfl : c = '(' := not_not.mp hother
    have hbare : bare ')' (r.drop (blankSize r)) = bare ')' cs := by
      rw [bare_drop_blanks, ← hname, bare_cons (by decide)]
      rfl
    have hblank := blankSize_le r
    have hsize : nameSize cs + 1 + blankSize r + (r.drop (blankSize r)).length = cs.length := by
      rw [List.length_drop]
      omega
    rw [← hbare, ← hsize]
    exact .inr (url_error _ _)
  · exact .inl ⟨by simp, rfl⟩

lemma comments_error (cs : List Char) :
    (comments cs).kind = .comments ∧
      ((comments cs).error = none ∧ ¬ Unclosed cs ∨
        (comments cs).error = some .unterminatedComment ∧ Unclosed cs ∧
          (comments cs).size = cs.length) := by
  refine ⟨rfl, ?_⟩
  rw [← not_all_closed_iff]
  by_cases hclosed : (commentRun cs).all Comment.closed
  · exact .inl ⟨if_pos hclosed, not_not.mpr hclosed⟩
  · exact .inr ⟨if_neg hclosed, hclosed, (all_closed_or cs).resolve_left hclosed⟩

lemma numeric_error (cs : List Char) : (numeric cs).error = none := by
  simp only [numeric]
  split_ifs <;> rfl

lemma single_error (c : Char) : c = '\\' ∧ single c = ⟨.delim, 1, some .invalidEscape⟩ ∨
    c ≠ '\\' ∧ (single c).error = none := by
  unfold single
  split_ifs with hslash
  · exact .inl ⟨hslash, rfl⟩
  · exact .inr ⟨hslash, rfl⟩

end Lexeme

def TokenKind.fallible : List TokenKind := [.string, .badString, .url, .badUrl, .comments]

/-- **Where errors come from**: most tokens have none. -/
theorem lex_error_cases (c : Char) (r : List Char) :
    (lex (c :: r)).error = none ∧ (lex (c :: r)).kind ∉ TokenKind.fallible ∧
        ((lex (c :: r)).kind = .delim → c ≠ '\\') ∨
      isQuote c ∧ lex (c :: r) = .string c r ∨ lex (c :: r) = .named (c :: r) ∨
      lex (c :: r) = .comments (c :: r) ∨
      c = '\\' ∧ lex (c :: r) = ⟨.delim, 1, some .invalidEscape⟩ := by
  have hform := lexForm c r
  generalize lex (c :: r) = l at hform ⊢
  cases hform with
  | blanks _ => exact .inl ⟨rfl, by simp [TokenKind.fallible], by simp⟩
  | string hquote => exact .inr (.inl ⟨hquote, rfl⟩)
  | numeric _ =>
    have hnumeric : ∀ k ∈ [TokenKind.dimension, .percentage, .number],
        k ∉ TokenKind.fallible ∧ k ≠ .delim := by decide
    obtain ⟨hkind, hdelim⟩ := hnumeric _ (Lexeme.numeric_kind (c :: r))
    exact .inl ⟨Lexeme.numeric_error _, hkind, fun h => absurd h hdelim⟩
  | cdc _ => exact .inl ⟨rfl, by simp [TokenKind.fallible], by simp⟩
  | named _ _ => exact .inr (.inr (.inl rfl))
  | mark =>
    rw [mark]
    split_ifs with hcdo hopen hhash hat
    · exact .inl ⟨rfl, by simp [TokenKind.fallible], by simp⟩
    · exact .inr (.inr (.inr (.inl rfl)))
    · unfold Lexeme.hash
      split_ifs <;> exact .inl ⟨rfl, by simp [TokenKind.fallible], by simp⟩
    · exact .inl ⟨rfl, by simp [TokenKind.fallible], by simp⟩
    · rcases Lexeme.single_error c with ⟨hslash, hlex⟩ | ⟨hslash, hnone⟩
      · exact .inr (.inr (.inr (.inr ⟨hslash, hlex⟩)))
      · have hsingle : ∀ k ∈ TokenKind.delim :: Lexeme.punctuation.map Prod.snd,
            k ∉ TokenKind.fallible := by decide
        exact .inl ⟨hnone, hsingle _ (Lexeme.single_kind c), fun _ => hslash⟩

namespace Source

variable {s : Source}

/-- What is wrong with the token at `s`, as the kinds of errors have it. A token that the text ends
in is all that is left of the text. -/
def Fault (s : Source) : LexErrorKind → Prop
  | .badString => s.token.kind = .badString
  | .badUrl => s.token.kind = .badUrl
  | .invalidEscape => s.token.kind = .delim ∧ s.peek = some '\\'
  | .unterminatedString => s.token.kind = .string ∧ s.token.stop = s.text.length ∧
      ∃ quote body, s.rest = quote :: body ∧ ¬ bare quote body
  | .unterminatedUrl => s.token.kind = .url ∧ s.token.stop = s.text.length ∧ ¬ bare ')' s.rest
  | .unterminatedComment => s.token.kind = .comments ∧ s.token.stop = s.text.length ∧
      Unclosed s.rest

lemma stop_of_size (h : s.location < s.text.length) (hsize : (lex s.rest).size = s.rest.length) :
    s.token.stop = s.text.length := by
  have hend : s.next.rest = [] := by
    rw [next_rest, hsize, List.drop_length]
  rw [rest_eq_nil_iff] at hend
  exact Nat.le_antisymm (token_stop_le (Nat.le_of_lt h)) hend

lemma not_fault (hsafe : s.token.kind ∉ TokenKind.fallible)
    (hdelim : s.token.kind = .delim → s.peek ≠ some '\\') (k : LexErrorKind) : ¬ s.Fault k := by
  simp only [TokenKind.fallible, List.mem_cons, List.not_mem_nil, or_false, not_or] at hsafe
  obtain ⟨hstring, hbadString, hurl, hbadUrl, hcomments⟩ := hsafe
  cases k with
  | unterminatedComment => exact fun h => hcomments h.1
  | unterminatedString => exact fun h => hstring h.1
  | badString => exact hbadString
  | unterminatedUrl => exact fun h => hurl h.1
  | badUrl => exact hbadUrl
  | invalidEscape => exact fun h => hdelim h.1 h.2

/-- **A token has an error** just where it has the fault that the error is named for. -/
theorem error_iff_fault {k : LexErrorKind} : s.token.error = some k ↔ s.Fault k := by
  have herror : s.token.error = (lex s.rest).error := rfl
  rw [herror]
  rcases hrest : s.rest with _ | ⟨c, r⟩
  · have hkind : s.token.kind = .eof := by rw [token_kind, hrest, lex]
    exact iff_of_false (by simp [lex])
      (not_fault (by simp [hkind, TokenKind.fallible]) (by simp [hkind]) k)
  have hpeek : s.peek = some c := by rw [peek, hrest]; rfl
  have hkind : s.token.kind = (lex (c :: r)).kind := by rw [token_kind, hrest]
  have hstop : (lex (c :: r)).size = r.length + 1 → s.token.stop = s.text.length := by
    intro hsize
    exact stop_of_size (lt_length_of_rest hrest) (by rw [hrest, hsize]; rfl)
  -- in each case the kind of the token leaves at most one of the faults open
  obtain ⟨hnone, hsafe, hdelim⟩ | ⟨hquote, hlex⟩ | hlex | hlex | ⟨rfl, hlex⟩ := lex_error_cases c r
  · rw [← hkind] at hsafe hdelim
    exact iff_of_false (by simp [hnone]) (not_fault hsafe (by simpa [hpeek] using hdelim) k)
  · rw [hlex] at hkind hstop ⊢
    obtain ⟨hbad, herr⟩ | ⟨hstring, ⟨herr, hbare⟩ | ⟨herr, hbare, hsize⟩⟩ :=
      Lexeme.string_error hquote r
    · cases k <;> simp [Fault, hkind, hbad, herr]
    · cases k <;> simp [Fault, hkind, hstring, herr, hrest, hbare]
    · cases k <;> simp [Fault, hkind, hstring, herr, hrest, hbare, hstop hsize]
  · rw [hlex] at hkind hstop ⊢
    obtain ⟨hplain, herr⟩ | ⟨hbad, herr⟩ | ⟨hurl, ⟨herr, hbare⟩ | ⟨herr, hbare, hsize⟩⟩ :=
      Lexeme.named_error (c :: r)
    · have hnames : ∀ k ∈ [TokenKind.ident, .function], k ∉ TokenKind.fallible ∧ k ≠ .delim := by
        decide
      rw [← hkind] at hplain
      obtain ⟨hsafe, hdelim⟩ := hnames _ hplain
      exact iff_of_false (by simp [herr]) (not_fault hsafe (fun h => absurd h hdelim) k)
    · cases k <;> simp [Fault, hkind, hbad, herr]
    · cases k <;> simp [Fault, hkind, hurl, herr, hrest, hbare]
    · cases k <;> simp [Fault, hkind, hurl, herr, hrest, hbare, hstop hsize]
  · rw [hlex] at hkind hstop ⊢
    obtain ⟨hcomments, ⟨herr, hclosed⟩ | ⟨herr, hclosed, hsize⟩⟩ := Lexeme.comments_error (c :: r)
    · cases k <;> simp [Fault, hkind, hcomments, herr, hrest, hclosed]
    · cases k <;> simp [Fault, hkind, hcomments, herr, hrest, hclosed, hstop hsize]
  · rw [hlex] at hkind ⊢
    cases k <;> simp [Fault, hkind, hpeek]

end Source

/-- The errors of what the text ends in. -/
def LexErrorKind.unterminated : List LexErrorKind :=
  [.unterminatedComment, .unterminatedString, .unterminatedUrl]

namespace Source

variable {s : Source}

lemma newline_of_fault (h : s.Fault .invalidEscape) : s.rest[1]? = some '\n' := by
  obtain ⟨hkind, hpeek⟩ := h
  obtain ⟨r, hrest⟩ := List.head?_eq_some_iff.mp hpeek
  rw [token_kind, hrest] at hkind
  obtain ⟨t, rfl⟩ := exists_newline_of_delim hkind
  rw [hrest]
  rfl

lemma stop_of_unterminated {k : LexErrorKind} (hk : k ∈ LexErrorKind.unterminated)
    (h : s.Fault k) : s.token.kind ≠ .eof ∧ s.token.stop = s.text.length := by
  simp only [LexErrorKind.unterminated, List.mem_cons, List.not_mem_nil, or_false] at hk
  rcases hk with rfl | rfl | rfl
  all_goals
    obtain ⟨hkind, hstop, -⟩ := h
    exact ⟨by simp [hkind], hstop⟩

end Source

namespace Lexer

/-! ### Errors of a lexer -/

/-- What reading one more token does to the errors that are held: at most one is added, which is
that of the token's fault, at its start. -/
structure Charges (l : Lexer) (new : List LexError) : Prop where
  errors : l.next.2.errors = l.errors ++ new
  length_le : new.length ≤ 1
  mem_iff (k : LexErrorKind) (p : ℕ) : ⟨k, p⟩ ∈ new ↔ p = l.next.1.start ∧ l.source.Fault k
  newline : ⟨.invalidEscape, l.next.1.start⟩ ∈ new → l.source.rest[1]? = some '\n'

lemma charges_next (l : Lexer) : l.Charges l.next.1.lexError?.toList := by
  have hmem : ∀ k p, ⟨k, p⟩ ∈ l.next.1.lexError?.toList ↔
      p = l.next.1.start ∧ l.source.Fault k := by
    intro k p
    rw [Option.mem_toList, ← Source.error_iff_fault]
    change (l.source.token.error.map fun k => LexError.mk k l.source.token.start) = some ⟨k, p⟩ ↔ _
    rw [Option.map_eq_some_iff]
    constructor
    · rintro ⟨j, hj, heq⟩
      cases heq
      exact ⟨rfl, hj⟩
    · rintro ⟨rfl, hk⟩
      exact ⟨k, hk, rfl⟩
  refine ⟨rfl, ?_, hmem, fun h => Source.newline_of_fault ((hmem _ _).mp h).2⟩
  rcases l.next.1.lexError? <;> simp

/-- What may be asked of a lexer. -/
inductive Call
  | next
  | seek (location : ℕ)
  | takeErrors
  deriving DecidableEq, Repr

/-- A lexer, and all it has given away: the tokens, and the errors that were taken. -/
structure Account where
  lexer : Lexer
  tokens : List Token
  taken : List LexError

namespace Account

def ofSource (s : Source) : Account := ⟨Lexer.ofSource s, [], []⟩

/-- A move to no place of the text is refused and changes nothing. -/
def step (a : Account) : Call → Account
  | .next => ⟨a.lexer.next.2, a.tokens ++ [a.lexer.next.1], a.taken⟩
  | .seek location =>
    match a.lexer.seek location with
    | .ok l => { a with lexer := l }
    | .error _ => a
  | .takeErrors => ⟨a.lexer.takeErrors.2, a.tokens, a.taken ++ a.lexer.takeErrors.1⟩

def run (a : Account) (calls : List Call) : Account := calls.foldl step a

/-- The errors that were taken and those that are held are the errors of the tokens that were
read. -/
def Balanced (a : Account) : Prop :=
  a.taken ++ a.lexer.errors = a.tokens.filterMap Token.lexError?

lemma balanced_ofSource (s : Source) : (ofSource s).Balanced := rfl

lemma balanced_step {a : Account} (h : a.Balanced) (call : Call) : (a.step call).Balanced := by
  unfold Balanced at *
  cases call with
  | next =>
    change a.taken ++ (a.lexer.errors ++ a.lexer.next.1.lexError?.toList) = _
    rw [← List.append_assoc, h]
    change _ = (a.tokens ++ [a.lexer.next.1]).filterMap Token.lexError?
    rw [List.filterMap_append]
    rcases he : a.lexer.next.1.lexError? <;> simp [he]
  | seek location =>
    rw [step, Lexer.seek, Source.seek]
    split_ifs
    · exact h
    · exact h
  | takeErrors =>
    change a.taken ++ a.lexer.errors ++ [] = _
    rw [List.append_nil]
    exact h

theorem balanced_run {a : Account} (h : a.Balanced) (calls : List Call) :
    (a.run calls).Balanced := by
  induction calls generalizing a with
  | nil => exact h
  | cons call calls ih => exact ih (balanced_step h call)

end Account

lemma pairwise_errors_after (s : Source) (n : ℕ) :
    ((ofSource s).after n).errors.Pairwise fun e f => e.location < f.location := by
  have hall := errorsToEnd_after (l := ofSource s) n
  have hpairwise := s.pairwise_lexErrors
  change _ = [] ++ s.lexErrors at hall
  rw [List.nil_append, errorsToEnd] at hall
  rw [← hall] at hpairwise
  exact (List.pairwise_append.mp hpairwise).1

lemma eof_behind_unterminated {l : Lexer} {n : ℕ} {k : LexErrorKind}
    (h : (l.nth n).error = some k) (hk : k ∈ LexErrorKind.unterminated) :
    (l.nth n).kind ≠ .eof ∧ (l.nth (n + 1)).kind = .eof := by
  rw [nth_eq_token, Source.error_iff_fault] at h
  obtain ⟨hkind, hstop⟩ := Source.stop_of_unterminated hk h
  refine ⟨hkind, (nth_eof_iff _).mpr ?_⟩
  rw [after_text] at hstop
  exact Nat.le_of_eq hstop.symm

/-- **Errors account for faults.** Whatever is asked of a lexer, the errors that were ever held are
those of the tokens that were read; reading one more token adds an error just where that token is at
fault. In a straight pass the errors lie one behind the other, and what is unterminated is the last
token before the end. -/
theorem errors_account_for_faults (s : Source) :
    (∀ calls, ((Account.ofSource s).run calls).Balanced ∧
      ∃ new, ((Account.ofSource s).run calls).lexer.Charges new) ∧
    (∀ n, ((ofSource s).after n).errors.Pairwise fun e f => e.location < f.location) ∧
    ∀ n k, ((ofSource s).nth n).error = some k → k ∈ LexErrorKind.unterminated →
      ((ofSource s).nth n).kind ≠ .eof ∧ ((ofSource s).nth (n + 1)).kind = .eof := by
  refine ⟨fun calls => ⟨Account.balanced_run (Account.balanced_ofSource s) calls, _,
    charges_next _⟩, ?_, ?_⟩
  · exact pairwise_errors_after s
  · exact fun n k => eof_behind_unterminated

end Lexer

end Stylesheet
