import Mathlib.Data.List.Basic
import Stylesheet.Token.Lexeme

/-!
How much of a text the scanners take. A reader of units takes at least one code point for each
and never more than there are, so a run of units lies in the text. A lexeme is put together
from such runs: it is not empty unless the text is, it lies in the text, and only the empty
text reads as the end.
-/

namespace Stylesheet.Text

/-- A reader whose units are not empty and lie in the text. -/
def Advances {α : Type} (size : α → ℕ) (next : List Char → Option α) : Prop :=
  ∀ ⦃cs a⦄, next cs = some a → 0 < size a ∧ size a ≤ cs.length

def taken {α : Type} (size : α → ℕ) : List α → ℕ
  | [] => 0
  | a :: as => size a + taken size as

lemma taken_units_le {α : Type} {size : α → ℕ} {next : List Char → Option α}
    (h : Advances size next) (cs : List Char) : taken size (units size next cs) ≤ cs.length := by
  -- the text after a unit is shorter, but not by one, so the induction is on its length
  induction hn : cs.length using Nat.strongRecOn generalizing cs with
  | ind n ih =>
    cases ha : next cs with
    | none => simp [units_of_none _ _ ha, taken]
    | some a =>
      obtain ⟨hpos, hle⟩ := h ha
      rcases cs with _ | ⟨c, r⟩
      · rw [List.length_nil] at hle; omega
      · rw [units_cons _ _ ha]
        simp only [List.length_cons] at hle hn
        have hrest := ih (r.drop (size a - 1)).length (by rw [List.length_drop]; omega) _ rfl
        simp only [taken, List.length_drop] at hrest ⊢
        omega

lemma extent_eq_taken (ps : List Piece) : extent ps = taken Piece.size ps := by
  induction ps with
  | nil => rfl
  | cons p ps ih => rw [extent, ih, taken]

lemma runSize_eq_taken (run : List Comment) : runSize run = taken Comment.size run := by
  induction run with
  | nil => rfl
  | cons c run ih => rw [runSize, ih, taken]

lemma extent_pieces_le {next : List Char → Option Piece} (h : Advances Piece.size next)
    (cs : List Char) : extent (pieces next cs) ≤ cs.length := by
  rw [extent_eq_taken]
  exact taken_units_le h cs

/-! ### Runs of one class -/

lemma blankSize_le (cs : List Char) : blankSize cs ≤ cs.length :=
  (List.takeWhile_sublist _).length_le

lemma digitsSize_le (cs : List Char) : digitsSize cs ≤ cs.length :=
  (List.takeWhile_sublist _).length_le

lemma blankSize_pos {c : Char} (r : List Char) (h : isBlank c) : 0 < blankSize (c :: r) := by
  simp [blankSize, h]

lemma digitsSize_pos {cs : List Char} (h : startsDigits cs) : 0 < digitsSize cs := by
  cases cs with
  | nil => simp [startsDigits] at h
  | cons c r =>
    have hc : c.isDigit = true := h
    simp [digitsSize, hc]

/-! ### Escapes and the readers that use them -/

lemma length_hexDigits_le (cs : List Char) : (hexDigits cs).length ≤ cs.length := by
  have h1 := List.length_filterMap_le hexDigit?
    ((cs.take 6).takeWhile fun c => (hexDigit? c).isSome)
  have h2 : ((cs.take 6).takeWhile fun c => (hexDigit? c).isSome).length ≤ (cs.take 6).length :=
    (List.takeWhile_sublist _).length_le
  have h3 := List.length_take_le 6 cs
  simp only [hexDigits, List.length_take] at h1 h2 h3 ⊢
  omega

lemma escape_size_le (cs : List Char) : (escape cs).size ≤ cs.length := by
  rcases cs with _ | ⟨c, r⟩
  · simp [escape]
  · have hlen := length_hexDigits_le (c :: r)
    unfold escape
    rcases hd : hexDigits (c :: r) with _ | ⟨d, ds⟩
    · simp
    · rw [hd] at hlen
      have hblank := blankSize_le ((c :: r).drop (d :: ds).length)
      simp only [List.length_drop, List.length_cons] at hlen hblank ⊢
      omega

lemma escapePiece_size (cs : List Char) : (escapePiece cs).size = (escape cs).size + 1 := rfl

lemma namePiece?_advances : Advances Piece.size namePiece? := by
  intro cs p h
  rcases cs with _ | ⟨c, r⟩
  · simp [namePiece?] at h
  · have hesc := escape_size_le r
    simp only [namePiece?] at h
    split_ifs at h <;> cases h
    · simp
    · simp only [escapePiece_size, List.length_cons]; omega

lemma stringPiece?_advances (quote : Char) : Advances Piece.size (stringPiece? quote) := by
  intro cs p h
  rcases cs with _ | ⟨c, r⟩
  · simp [stringPiece?] at h
  · simp only [stringPiece?] at h
    split_ifs at h
    · rcases r with _ | ⟨d, r⟩
      · cases h; simp
      · have hesc := escape_size_le (d :: r)
        simp only at h
        split_ifs at h <;> cases h
        · simp
        · simp only [escapePiece_size, List.length_cons] at hesc ⊢; omega
    · cases h; simp

lemma urlPiece?_advances : Advances Piece.size urlPiece? := by
  intro cs p h
  rcases cs with _ | ⟨c, r⟩
  · simp [urlPiece?] at h
  · have hesc := escape_size_le r
    simp only [urlPiece?] at h
    split_ifs at h <;> cases h
    · simp only [escapePiece_size, List.length_cons]; omega
    · simp

lemma remnantPiece?_advances : Advances Piece.size remnantPiece? := by
  intro cs p h
  rcases cs with _ | ⟨c, r⟩
  · simp [remnantPiece?] at h
  · have hesc := escape_size_le r
    simp only [remnantPiece?] at h
    split_ifs at h <;> cases h
    · simp only [escapePiece_size, List.length_cons]; omega
    · simp

/-! ### Names -/

lemma nameSize_le (cs : List Char) : nameSize cs ≤ cs.length :=
  extent_pieces_le namePiece?_advances cs

lemma nameSize_pos {cs : List Char} (h : (namePiece? cs).isSome) : 0 < nameSize cs := by
  obtain ⟨p, hp⟩ := Option.isSome_iff_exists.mp h
  rcases cs with _ | ⟨c, r⟩
  · simp [namePiece?] at hp
  · have hpos := (namePiece?_advances hp).1
    rw [nameSize, namePieces, pieces, units_cons _ _ hp, extent]
    omega

lemma namePiece?_of_startsName {cs : List Char} (h : startsName cs) : (namePiece? cs).isSome := by
  rcases cs with _ | ⟨c, r⟩
  · simp [startsName] at h
  · simp only [startsName] at h
    simp only [namePiece?]
    split_ifs at h with hdash hslash
    · simp [hdash, isNameChar]
    · rw [if_pos h]
      split_ifs <;> rfl
    · simp [isNameChar, h]

/-! ### Numbers -/

lemma signSize_le (cs : List Char) : signSize cs ≤ cs.length := by
  rcases cs with _ | ⟨c, r⟩
  · simp [signSize]
  · simp only [signSize, List.length_cons]; split_ifs <;> omega

lemma fractionSize_le (cs : List Char) : fractionSize cs ≤ cs.length := by
  unfold fractionSize
  split_ifs with h
  · rcases cs with _ | ⟨c, r⟩
    · simp [startsFraction] at h
    · have := digitsSize_le r
      simp only [List.drop_one, List.tail_cons, List.length_cons]; omega
  · omega

lemma exponentSize_le (cs : List Char) : exponentSize cs ≤ cs.length := by
  rcases cs with _ | ⟨c, r⟩
  · simp [exponentSize]
  · have hsign := signSize_le r
    have hdigits := digitsSize_le (r.drop (signSize r))
    simp only [exponentSize, List.length_cons, List.length_drop] at hdigits ⊢
    split_ifs <;> omega

lemma numberSize_le (cs : List Char) : numberSize cs ≤ cs.length := by
  unfold numberSize
  have hsign := signSize_le cs
  have hdigits := digitsSize_le (cs.drop (signSize cs))
  have hfraction := fractionSize_le (cs.drop (signSize cs + digitsSize (cs.drop (signSize cs))))
  have hexponent := exponentSize_le (cs.drop (signSize cs + digitsSize (cs.drop (signSize cs)) +
    fractionSize (cs.drop (signSize cs + digitsSize (cs.drop (signSize cs))))))
  simp only [List.length_drop] at hdigits hfraction hexponent ⊢
  omega

lemma numberSize_pos {cs : List Char} (h : startsNumber cs) : 0 < numberSize cs := by
  rcases cs with _ | ⟨c, r⟩
  · simp [startsNumber] at h
  · unfold numberSize
    by_cases hs : isSign c
    · have : signSize (c :: r) = 1 := by simp [signSize, hs]
      simp only [this]; omega
    · have hzero : signSize (c :: r) = 0 := by simp [signSize, hs]
      simp only [startsNumber, hs, Bool.false_eq_true, if_false, Bool.or_eq_true] at h
      simp only [hzero, List.drop_zero, Nat.zero_add]
      by_cases hd : startsDigits (c :: r)
      · have := digitsSize_pos hd; omega
      · -- without a digit in front, the number is a fraction
        have hf : startsFraction (c :: r) := by simpa [hd] using h
        have hc : c.isDigit = false := by simpa [startsDigits] using hd
        have hnone : digitsSize (c :: r) = 0 := by simp [digitsSize, hc]
        have : 0 < fractionSize (c :: r) := by simp only [fractionSize, hf, if_true]; omega
        simp only [hnone, List.drop_zero]; omega

/-! ### Comments -/

lemma commentRest?_le {cs : List Char} {n : ℕ} (h : commentRest? cs = some n) :
    n ≤ cs.length := by
  fun_induction commentRest? cs generalizing n with
  | case1 r => cases h; simp
  | case2 c r _ ih =>
    obtain ⟨m, hm, rfl⟩ := Option.map_eq_some_iff.mp h
    have := ih hm
    simp only [List.length_cons]; omega
  | case3 => simp at h

lemma comment?_advances : Advances Comment.size comment? := by
  intro cs a h
  unfold comment? at h
  split at h
  · next r =>
    cases hr : commentRest? r with
    | none =>
      rw [hr] at h; cases h
      simp only [List.length_cons]; omega
    | some n =>
      have := commentRest?_le hr
      rw [hr] at h; cases h
      simp only [List.length_cons]; omega
  · simp at h

end Stylesheet.Text

namespace Stylesheet

open Stylesheet.Text

/-- A lexeme that is not the end and takes a part of the text that is not empty. -/
def Lexeme.Takes (l : Lexeme) (cs : List Char) : Prop :=
  l.kind ≠ .eof ∧ 0 < l.size ∧ l.size ≤ cs.length

namespace Lexeme

lemma takes_mk {kind : TokenKind} {size : ℕ} {error : Option LexErrorKind} {cs : List Char}
    (hkind : kind ≠ .eof) (hpos : 0 < size) (hle : size ≤ cs.length) :
    (Lexeme.mk kind size error).Takes cs := ⟨hkind, hpos, hle⟩

lemma string_takes (quote : Char) (r : List Char) : (string quote r).Takes (quote :: r) := by
  have hbody : extent (stringPieces quote r) ≤ r.length :=
    extent_pieces_le (stringPiece?_advances quote) r
  have hrest := List.length_drop (i := extent (stringPieces quote r)) (l := r)
  simp only [string]
  rcases hd : r.drop (extent (stringPieces quote r)) with _ | ⟨c, t⟩
  · exact takes_mk (by simp) (by omega) (by rw [List.length_cons]; omega)
  · rw [hd, List.length_cons] at hrest
    simp only
    split_ifs
    · exact takes_mk (by simp) (by omega) (by rw [List.length_cons]; omega)
    · exact takes_mk (by simp) (by omega) (by rw [List.length_cons]; omega)

lemma numeric_takes {cs : List Char} (h : startsNumber cs) : (numeric cs).Takes cs := by
  have hpos := numberSize_pos h
  have hle := numberSize_le cs
  have hunit := nameSize_le (cs.drop (numberSize cs))
  have hrest := List.length_drop (i := numberSize cs) (l := cs)
  simp only [numeric]
  split_ifs with hname hpercent
  · exact takes_mk (by simp) (by omega) (by omega)
  · rcases hd : cs.drop (numberSize cs) with _ | ⟨c, t⟩
    · simp [hd] at hpercent
    · rw [hd, List.length_cons] at hrest
      exact takes_mk (by simp) (by omega) (by omega)
  · exact takes_mk (by simp) hpos hle

lemma badUrl_takes {n : ℕ} {r cs : List Char} (hn : 0 < n) (h : n + r.length ≤ cs.length) :
    (badUrl n r).Takes cs := by
  have hbody : extent (remnantPieces r) ≤ r.length := extent_pieces_le remnantPiece?_advances r
  have hrest := List.length_drop (i := extent (remnantPieces r)) (l := r)
  exact takes_mk (by simp) (by omega) (by omega)

lemma url_takes {n : ℕ} {r cs : List Char} (hn : 0 < n) (h : n + r.length ≤ cs.length) :
    (url n r).Takes cs := by
  have hbody : extent (urlPieces r) ≤ r.length := extent_pieces_le urlPiece?_advances r
  have hblank := blankSize_le (r.drop (extent (urlPieces r)))
  simp only [List.length_drop] at hblank
  have hrest := List.length_drop
    (i := extent (urlPieces r) + blankSize (r.drop (extent (urlPieces r)))) (l := r)
  simp only [url]
  rcases hd : r.drop (extent (urlPieces r) + blankSize (r.drop (extent (urlPieces r)))) with
    _ | ⟨c, t⟩
  · exact takes_mk (by simp) (by omega) (by omega)
  · rw [hd, List.length_cons] at hrest
    simp only
    split_ifs
    · exact takes_mk (by simp) (by omega) (by omega)
    · exact badUrl_takes (by omega) (by simp only [List.length_cons]; omega)

lemma named_takes {cs : List Char} (h : startsName cs) : (named cs).Takes cs := by
  have hpos := nameSize_pos (namePiece?_of_startsName h)
  have hle := nameSize_le cs
  have hrest := List.length_drop (i := nameSize cs) (l := cs)
  simp only [named]
  rcases hd : cs.drop (nameSize cs) with _ | ⟨c, r⟩
  · exact ⟨by simp, hpos, hle⟩
  · rw [hd, List.length_cons] at hrest
    have hblank := blankSize_le r
    simp only
    split_ifs
    · exact ⟨by simp, hpos, hle⟩
    · exact takes_mk (by simp) (by omega) (by omega)
    · exact url_takes (by omega) (by simp only [List.length_drop]; omega)
    · exact takes_mk (by simp) (by omega) (by omega)

lemma comments_takes {cs : List Char} (h : ['/', '*'].isPrefixOf cs) : (comments cs).Takes cs := by
  rcases cs with _ | ⟨c, _ | ⟨d, r⟩⟩
  · simp at h
  · simp at h
  · obtain ⟨rfl, rfl⟩ : '/' = c ∧ '*' = d := by simpa using h
    obtain ⟨a, ha⟩ : ∃ a, comment? ('/' :: '*' :: r) = some a := by
      simp only [comment?]
      cases commentRest? r <;> exact ⟨_, rfl⟩
    have hpos := (comment?_advances ha).1
    have hle := taken_units_le comment?_advances ('/' :: '*' :: r)
    refine ⟨by simp [comments], ?_, ?_⟩
    · simp only [comments, commentRun, units_cons _ _ ha, runSize]; omega
    · simpa [comments, commentRun, runSize_eq_taken] using hle

lemma hash_takes (c : Char) (r : List Char) : (hash r).Takes (c :: r) := by
  have hle := nameSize_le r
  refine ⟨?_, ?_, ?_⟩
  · simp only [hash]; split_ifs <;> simp
  · simp only [hash]; omega
  · simp only [hash, List.length_cons]; omega

lemma single_takes (c : Char) (r : List Char) : (single c).Takes (c :: r) := by
  unfold single
  split_ifs
  · exact ⟨by simp, by simp, by simp⟩
  · refine ⟨?_, by simp, by simp⟩
    -- no entry of the table is the end
    have htable : ∀ p ∈ punctuation, p.2 ≠ .eof := by decide
    cases hk : punctuation.lookup c with
    | none => simp
    | some k =>
      obtain ⟨l₁, l₂, hsplit, -⟩ := List.lookup_eq_some_iff.mp hk
      exact htable (c, k) (by simp [hsplit])

end Lexeme

/-! ### Which lexeme it is -/

/-- The lexemes that are looked for last, where neither a number nor a name starts. -/
def mark (c : Char) (r : List Char) : Lexeme :=
  if ['<', '!', '-', '-'].isPrefixOf (c :: r) then ⟨.cdo, 4, none⟩
  else if ['/', '*'].isPrefixOf (c :: r) then .comments (c :: r)
  else if c = '#' ∧ (namePiece? r).isSome then .hash r
  else if c = '@' ∧ startsName r then ⟨.atKeyword, 1 + nameSize r, none⟩
  else .single c

section

variable {c : Char} {r : List Char}

lemma lex_of_blank (hblank : isBlank c) :
    lex (c :: r) = ⟨.whitespace, blankSize (c :: r), none⟩ := if_pos hblank

lemma lex_of_quote (hblank : ¬ isBlank c) (hquote : isQuote c) :
    lex (c :: r) = .string c r := by
  rw [lex, if_neg hblank, if_pos hquote]

lemma lex_of_number (hblank : ¬ isBlank c) (hquote : ¬ isQuote c)
    (hnumber : startsNumber (c :: r)) : lex (c :: r) = .numeric (c :: r) := by
  rw [lex, if_neg hblank, if_neg hquote, if_pos hnumber]

lemma lex_of_cdc (hblank : ¬ isBlank c) (hquote : ¬ isQuote c) (hnumber : ¬ startsNumber (c :: r))
    (hcdc : ['-', '-', '>'].isPrefixOf (c :: r)) : lex (c :: r) = ⟨.cdc, 3, none⟩ := by
  rw [lex, if_neg hblank, if_neg hquote, if_neg hnumber, if_pos hcdc]

lemma lex_of_name (hblank : ¬ isBlank c) (hquote : ¬ isQuote c) (hnumber : ¬ startsNumber (c :: r))
    (hcdc : ¬ ['-', '-', '>'].isPrefixOf (c :: r)) (hname : startsName (c :: r)) :
    lex (c :: r) = .named (c :: r) := by
  rw [lex, if_neg hblank, if_neg hquote, if_neg hnumber, if_neg hcdc, if_pos hname]

lemma lex_of_mark (hblank : ¬ isBlank c) (hquote : ¬ isQuote c) (hnumber : ¬ startsNumber (c :: r))
    (hcdc : ¬ ['-', '-', '>'].isPrefixOf (c :: r)) (hname : ¬ startsName (c :: r)) :
    lex (c :: r) = mark c r := by
  rw [lex, if_neg hblank, if_neg hquote, if_neg hnumber, if_neg hcdc, if_neg hname]
  rfl

end

/-- The forms of the lexeme before `c` and `r`, in the order in which they are looked for. -/
inductive LexForm (c : Char) (r : List Char) : Lexeme → Prop
  | blanks (h : isBlank c) : LexForm c r ⟨.whitespace, blankSize (c :: r), none⟩
  | string (h : isQuote c) : LexForm c r (.string c r)
  | numeric (h : startsNumber (c :: r)) : LexForm c r (.numeric (c :: r))
  | cdc (h : ['-', '-', '>'].isPrefixOf (c :: r)) : LexForm c r ⟨.cdc, 3, none⟩
  | named (h : startsName (c :: r)) (hcdc : ¬ ['-', '-', '>'].isPrefixOf (c :: r)) :
    LexForm c r (.named (c :: r))
  | mark : LexForm c r (mark c r)

/-- **What a lexeme can be.** -/
theorem lexForm (c : Char) (r : List Char) : LexForm c r (lex (c :: r)) := by
  by_cases hblank : isBlank c
  · rw [lex_of_blank hblank]
    exact .blanks hblank
  by_cases hquote : isQuote c
  · rw [lex_of_quote hblank hquote]
    exact .string hquote
  by_cases hnumber : startsNumber (c :: r)
  · rw [lex_of_number hblank hquote hnumber]
    exact .numeric hnumber
  by_cases hcdc : ['-', '-', '>'].isPrefixOf (c :: r)
  · rw [lex_of_cdc hblank hquote hnumber hcdc]
    exact .cdc hcdc
  by_cases hname : startsName (c :: r)
  · rw [lex_of_name hblank hquote hnumber hcdc hname]
    exact .named hname hcdc
  · rw [lex_of_mark hblank hquote hnumber hcdc hname]
    exact .mark

/-! ### Progress -/

lemma mark_takes (c : Char) (r : List Char) : (mark c r).Takes (c :: r) := by
  unfold mark
  split_ifs with hcdo hcomment
  · exact ⟨by simp, by simp, (List.isPrefixOf_iff_prefix.mp hcdo).length_le⟩
  · exact Lexeme.comments_takes hcomment
  · exact Lexeme.hash_takes c r
  · have hle := nameSize_le r
    exact Lexeme.takes_mk (by simp) (by omega) (by rw [List.length_cons]; omega)
  · exact Lexeme.single_takes c r

/-- **Lexing makes progress**: where there is text, a lexeme takes some of it. -/
theorem lex_takes (c : Char) (r : List Char) : (lex (c :: r)).Takes (c :: r) := by
  have hform := lexForm c r
  generalize lex (c :: r) = l at hform ⊢
  cases hform with
  | blanks hblank => exact ⟨by simp, blankSize_pos r hblank, blankSize_le _⟩
  | string _ => exact Lexeme.string_takes c r
  | numeric hnumber => exact Lexeme.numeric_takes hnumber
  | cdc hcdc => exact ⟨by simp, by simp, (List.isPrefixOf_iff_prefix.mp hcdc).length_le⟩
  | named hname _ => exact Lexeme.named_takes hname
  | mark => exact mark_takes c r

lemma lex_kind_eof_iff (cs : List Char) : (lex cs).kind = .eof ↔ cs = [] := by
  cases cs with
  | nil => simp [lex]
  | cons c r => simp [(lex_takes c r).1]

end Stylesheet
