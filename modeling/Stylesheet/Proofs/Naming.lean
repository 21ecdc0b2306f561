import Stylesheet.Proofs.Comments
import Stylesheet.Proofs.Correspondence
import Mathlib.Data.List.Forall2

/-!
Names. A name can be read one character at a time, taken whole, or compared with a keyword while it
is read; all three come to the same characters and end at the same place. Which tokens start with a
name shows in the first three code points.
-/

namespace Stylesheet.Text

/-! ### Words -/

lemma sameWord_iff {cs ds : List Char} :
    sameWord cs ds ↔ cs.map Char.toLower = ds.map Char.toLower := by
  fun_induction sameWord cs ds with
  | case1 => simp
  | case2 c cs d ds ih => simp [sameLetter, ih]
  | case3 cs ds hnil hcons =>
    rcases cs with _ | ⟨c, cs⟩
    · rcases ds with _ | ⟨d, ds⟩
      · exact absurd rfl (hnil rfl)
      · simp
    · rcases ds with _ | ⟨d, ds⟩
      · simp
      · exact absurd rfl (hcons c cs d ds rfl)

/-- One character twice, or a letter of ASCII in both cases. -/
def SameUpToCase (c d : Char) : Prop :=
  c = d ∨ (c.isUpper ∧ d.toNat = c.toNat + 32) ∨ (d.isUpper ∧ c.toNat = d.toNat + 32)

lemma isUpper_iff {c : Char} : c.isUpper ↔ 65 ≤ c.toNat ∧ c.toNat ≤ 90 := by
  change decide (c.val ≥ 65 ∧ c.val ≤ 90) = true ↔ _
  rw [decide_eq_true_eq]
  rfl

lemma toNat_toLower (c : Char) :
    c.toLower.toNat = if c.isUpper then c.toNat + 32 else c.toNat := by
  simp only [isUpper_iff]
  unfold Char.toLower
  split_ifs with hupper hbounds hbounds
  · change (c.val + 32).toNat = c.val.toNat + 32
    rw [UInt32.toNat_add]
    change (c.toNat + 32) % 4294967296 = c.toNat + 32
    omega
  · exact absurd hupper hbounds
  · exact absurd hbounds hupper
  · rfl

lemma toLower_eq_iff {c d : Char} : c.toLower = d.toLower ↔ SameUpToCase c d := by
  have hnat : c = d ↔ c.toNat = d.toNat := Char.toNat_inj.symm
  rw [← Char.toNat_inj, toNat_toLower, toNat_toLower, SameUpToCase, hnat]
  simp only [isUpper_iff]
  split_ifs <;> omega

lemma sameWord_iff_forall₂ {cs ds : List Char} :
    sameWord cs ds ↔ List.Forall₂ SameUpToCase cs ds := by
  rw [sameWord_iff, ← List.forall₂_eq_eq_eq, List.forall₂_map_left_iff, List.forall₂_map_right_iff]
  simp only [toLower_eq_iff]

lemma exists_of_namePiece? {cs : List Char} {p : Piece} (h : namePiece? cs = some p) :
    ∃ c, p = ⟨some c, p.size⟩ := by
  rcases cs with _ | ⟨c, r⟩
  · cases h
  · rw [namePiece?] at h
    split_ifs at h
    · cases h
      exact ⟨c, rfl⟩
    · cases h
      exact ⟨_, rfl⟩

lemma namePieces_of_some {cs : List Char} {p : Piece} (h : namePiece? cs = some p) :
    namePieces cs = p :: namePieces (cs.drop p.size) :=
  units_of_some namePiece?_advances h

lemma namePieces_of_none {cs : List Char} (h : namePiece? cs = none) : namePieces cs = [] :=
  units_of_none _ _ h

lemma nameText_of_some {cs : List Char} {c : Char} {n : ℕ}
    (h : namePiece? cs = some ⟨some c, n⟩) : nameText cs = c :: nameText (cs.drop n) := by
  rw [nameText, namePieces_of_some h]
  rfl

lemma nameSize_of_some {cs : List Char} {p : Piece} (h : namePiece? cs = some p) :
    nameSize cs = p.size + nameSize (cs.drop p.size) := by
  rw [nameSize, namePieces_of_some h]
  rfl

lemma nameText_of_none {cs : List Char} (h : namePiece? cs = none) : nameText cs = [] := by
  rw [nameText, namePieces_of_none h]
  rfl

/-- **A keyword** is found where the whole name spells it, and takes that name. -/
theorem keywordSize?_eq_some_iff {keyword cs : List Char} {n : ℕ} :
    keywordSize? keyword cs = some n ↔ sameWord (nameText cs) keyword ∧ n = nameSize cs := by
  induction keyword generalizing cs n with
  | nil =>
    rcases hp : namePiece? cs with _ | p
    · simp [keywordSize?, hp, nameText_of_none hp, Lexeme.nameSize_eq_zero hp, sameWord, eq_comm]
    · obtain ⟨c, hc⟩ := exists_of_namePiece? hp
      rw [hc] at hp
      simp [keywordSize?, hp, nameText_of_some hp, sameWord]
  | cons k ks ih =>
    rcases hp : namePiece? cs with _ | p
    · simp [keywordSize?, hp, nameText_of_none hp, sameWord]
    · obtain ⟨c, hc⟩ := exists_of_namePiece? hp
      rw [hc] at hp
      simp only [keywordSize?, hp, nameText_of_some hp, nameSize_of_some hp, sameWord,
        Bool.and_eq_true]
      split_ifs with hsame
      · rw [Option.map_eq_some_iff]
        constructor
        · rintro ⟨m, hm, rfl⟩
          obtain ⟨hword, rfl⟩ := ih.mp hm
          exact ⟨⟨hsame, hword⟩, rfl⟩
        · rintro ⟨⟨-, hword⟩, rfl⟩
          exact ⟨_, ih.mpr ⟨hword, rfl⟩, rfl⟩
      · simp [hsame]

/-! ### Where a name starts -/

lemma startsName_take (cs : List Char) : startsName (cs.take 3) = startsName cs := by
  rcases cs with _ | ⟨b, _ | ⟨c, _ | ⟨d, r⟩⟩⟩ <;> rfl

lemma isDigit_iff {c : Char} : c.isDigit ↔ 48 ≤ c.toNat ∧ c.toNat ≤ 57 := by
  simp only [Char.isDigit, Bool.and_eq_true, decide_eq_true_eq, ge_iff_le, UInt32.le_iff_toNat_le]
  rfl

lemma isNameStart_iff {c : Char} : isNameStart c ↔
    (65 ≤ c.toNat ∧ c.toNat ≤ 90) ∨ (97 ≤ c.toNat ∧ c.toNat ≤ 122) ∨ c = '_' ∨ 128 ≤ c.toNat := by
  have hlower : c.isLower ↔ 97 ≤ c.toNat ∧ c.toNat ≤ 122 := by
    change (decide (c.val ≥ 97) && decide (c.val ≤ 122)) = true ↔ _
    rw [Bool.and_eq_true, decide_eq_true_eq, decide_eq_true_eq]
    rfl
  change (c.isUpper || c.isLower || c == '_' || decide (128 ≤ c.toNat)) = true ↔ _
  rw [Bool.or_eq_true, Bool.or_eq_true, Bool.or_eq_true, isUpper_iff, hlower, beq_iff_eq,
    decide_eq_true_eq, or_assoc, or_assoc]

lemma isQuote_iff {c : Char} : isQuote c ↔ c = '"' ∨ c = '\'' := by
  simp [isQuote]

lemma not_isDigit_of_isNameStart {c : Char} (h : isNameStart c) : ¬ c.isDigit := by
  rw [isDigit_iff]
  rcases isNameStart_iff.mp h with h | h | rfl | h
  · omega
  · omega
  · decide
  · omega

lemma startsNumber_dash (r : List Char) :
    startsNumber ('-' :: r) = (startsDigits r || startsFraction r) := rfl

lemma excludes_of_startsName {c : Char} {r : List Char} (h : startsName (c :: r)) :
    ¬ isBlank c ∧ ¬ isQuote c ∧ ¬ startsNumber (c :: r) := by
  by_cases hdash : c = '-'
  · subst hdash
    refine ⟨by decide, by decide, ?_⟩
    rcases r with _ | ⟨d, t⟩
    · cases h
    have hstart : isNameStart d ∨ d = '-' ∨ d = '\\' := by
      rw [startsName_dash, Bool.or_eq_true, Bool.or_eq_true, beq_iff_eq] at h
      rcases h with (h | h) | h
      · exact .inl h
      · exact .inr (.inl h)
      · exact .inr (.inr (eq_slash_of_startsEscape h))
    have hdigit : ¬ d.isDigit := by
      rcases hstart with hd | rfl | rfl
      · exact not_isDigit_of_isNameStart hd
      · decide
      · decide
    have hdot : d ≠ '.' := by
      rintro rfl
      revert hstart
      decide
    simp [startsNumber_dash, startsDigits, startsFraction, hdigit, hdot]
  by_cases hslash : c = '\\'
  · subst hslash
    exact ⟨by decide, by decide, Bool.false_ne_true⟩
  · rw [startsName_other hdash hslash] at h
    have hdigit := not_isDigit_of_isNameStart h
    obtain ⟨hblank, hquote, hsign, hdot⟩ :
        ¬ isBlank c ∧ ¬ isQuote c ∧ ¬ isSign c ∧ c ≠ '.' := by
      simp only [isBlank, isQuote, isSign, Bool.or_eq_true, beq_iff_eq, not_or]
      refine ⟨⟨⟨?_, ?_⟩, ?_⟩, ⟨?_, ?_⟩, ⟨?_, ?_⟩, ?_⟩ <;> (rintro rfl; revert h; decide)
    refine ⟨hblank, hquote, ?_⟩
    rw [startsNumber, if_neg hsign]
    simp [startsDigits, startsFraction, hdigit, hdot]

end Stylesheet.Text

namespace Stylesheet

open Stylesheet.Text

/-! ### Kinds -/

def TokenKind.named : List TokenKind := [.ident, .function, .url, .badUrl]

/-- The kinds of tokens that are looked for last. -/
def TokenKind.marks : List TokenKind :=
  [.cdo, .comments, .hashId, .hashUnrestricted, .atKeyword, .delim] ++
    Lexeme.punctuation.map Prod.snd

lemma mark_kind (c : Char) (r : List Char) : (mark c r).kind ∈ TokenKind.marks := by
  unfold mark
  split_ifs
  · simp [TokenKind.marks]
  · simp [TokenKind.marks, Lexeme.comments]
  · unfold Lexeme.hash
    split_ifs <;> simp [TokenKind.marks]
  · simp [TokenKind.marks]
  · rcases List.mem_cons.mp (Lexeme.single_kind c) with h | h
    · simp [TokenKind.marks, h]
    · exact List.mem_append_right _ h

lemma lex_of_startsName {cs : List Char} (h : startsName cs)
    (hcdc : ¬ ['-', '-', '>'].isPrefixOf cs) : lex cs = .named cs := by
  rcases cs with _ | ⟨c, r⟩
  · cases h
  · obtain ⟨hblank, hquote, hnumber⟩ := excludes_of_startsName h
    exact lex_of_name hblank hquote hnumber hcdc h

/-- **A name of its own** is what a token starts with where a name can start, but for `-->`. -/
lemma lex_kind_named_iff (cs : List Char) :
    (lex cs).kind ∈ TokenKind.named ↔ startsName cs ∧ ¬ ['-', '-', '>'].isPrefixOf cs := by
  constructor
  · intro h
    rcases cs with _ | ⟨c, r⟩
    · simp [lex, TokenKind.named] at h
    have hform := lexForm c r
    generalize lex (c :: r) = l at hform h
    cases hform with
    | blanks _ => simp [TokenKind.named] at h
    | string _ =>
      have hstring : ∀ k ∈ [TokenKind.string, .badString], k ∉ TokenKind.named := by decide
      exact absurd h (hstring _ (Lexeme.string_kind c r))
    | numeric _ =>
      have hnumeric : ∀ k ∈ [TokenKind.dimension, .percentage, .number],
          k ∉ TokenKind.named := by decide
      exact absurd h (hnumeric _ (Lexeme.numeric_kind _))
    | cdc _ => simp [TokenKind.named] at h
    | named hname hcdc => exact ⟨hname, hcdc⟩
    | mark =>
      have hmark : ∀ k ∈ TokenKind.marks, k ∉ TokenKind.named := by decide
      exact absurd h (hmark _ (mark_kind c r))
  · rintro ⟨hname, hcdc⟩
    rw [lex_of_startsName hname hcdc]
    exact Lexeme.named_kind cs

/-! ### Reading a name -/

namespace Source

/-- Read one character after the other, the name at `s` is `name`, and the last source is where it
ends. -/
inductive ReadsName : Source → List Char → Source → Prop
  | stop {s : Source} (h : s.readNameChar = (none, s)) : ReadsName s [] s
  | more {s r e : Source} {c : Char} {name : List Char} (h : s.readNameChar = (some c, r))
      (rest : ReadsName r name e) : ReadsName s (c :: name) e

variable {s e : Source} {name : List Char}

lemma skip_skip (s : Source) (n k : ℕ) : (s.skip n).skip k = s.skip (n + k) := by
  rw [skip, skip_locationAfter]
  rfl

lemma skip_zero (s : Source) : s.skip 0 = s := by
  rw [skip, locationAfter_zero]

/-- **The end of a name**: reading its characters in turn comes to all of its text and passes all of
its size. -/
theorem readsName_iff :
    s.ReadsName name e ↔ name = nameText s.rest ∧ e = s.skip (nameSize s.rest) := by
  constructor
  · intro h
    induction h with
    | @stop s h =>
      have hnone : namePiece? s.rest = none := by
        rcases hp : namePiece? s.rest with _ | p
        · rfl
        · obtain ⟨c, hc⟩ := exists_of_namePiece? hp
          rw [readNameChar, hp, hc] at h
          cases congrArg Prod.fst h
      rw [nameText_of_none hnone, Lexeme.nameSize_eq_zero hnone, skip_zero]
      exact ⟨rfl, rfl⟩
    | @more s r e c name h _ ih =>
      rcases hp : namePiece? s.rest with _ | p
      · rw [readNameChar, hp] at h
        cases congrArg Prod.fst h
      · obtain ⟨d, hd⟩ := exists_of_namePiece? hp
        rw [readNameChar, hp] at h
        obtain ⟨hc, rfl⟩ := Prod.mk.inj h
        obtain ⟨rfl, rfl⟩ := ih
        rw [hd] at hc hp
        obtain rfl := Option.some.inj hc
        rw [nameText_of_some hp, nameSize_of_some hp, skip_rest, skip_skip]
        exact ⟨rfl, rfl⟩
  · rintro ⟨rfl, rfl⟩
    induction hcs : s.rest using units_induction namePiece?_advances generalizing s with
    | stop cs hnone _ =>
      rw [nameText_of_none hnone, Lexeme.nameSize_eq_zero hnone, skip_zero]
      refine .stop ?_
      rw [readNameChar, hcs, hnone]
    | unit cs p hp _ ih =>
      obtain ⟨c, hc⟩ := exists_of_namePiece? hp
      have hrest := ih (s := s.skip p.size) (by rw [skip_rest, hcs])
      rw [hc] at hp
      rw [nameText_of_some hp, nameSize_of_some hp]
      rw [skip_skip] at hrest
      refine .more ?_ hrest
      rw [readNameChar, hcs, hp]

/-- A keyword leaves the source where the name that spells it ends. -/
lemma readKeyword_eq (s : Source) (keyword : List Char) : s.readKeyword keyword =
    if sameWord (nameText s.rest) keyword then (true, s.skip (nameSize s.rest)) else (false, s) := by
  split_ifs with hword
  · have hsize := keywordSize?_eq_some_iff.mpr ⟨hword, rfl⟩
    rw [readKeyword, hsize]
  · have hnone : keywordSize? keyword s.rest = none := by
      rw [← Option.not_isSome_iff_eq_none, Option.isSome_iff_exists]
      rintro ⟨n, hn⟩
      exact hword (keywordSize?_eq_some_iff.mp hn).1
    rw [readKeyword, hnone]

lemma locationAfter_one {c : Char} (hc : Plain c) (h : e.peek = some c) :
    e.locationAfter 1 = e.location + 1 := by
  have hplain : ∀ d ∈ [c], Plain d := by simpa using hc
  obtain ⟨r, hr⟩ : ∃ r, e.rest = c :: r := List.head?_eq_some_iff.mp h
  have hthere : [c] <+: e.text.drop e.location :=
    (prefix_chars_decode_iff hplain).mp ⟨r, hr.symm⟩
  exact congrArg (e.location + ·) (width_take_plain hplain hthere)

/-- What the name at `s`, which reads `name` and ends at `e`, says of a keyword there. -/
structure KeywordDecides (s : Source) (keyword name : List Char) (e : Source) : Prop where
  contents : s.location ≤ s.text.length → s.contentsAt .name s.location = .ok name
  found_iff : (s.readKeyword keyword).1 ↔ List.Forall₂ SameUpToCase name keyword
  found : (s.readKeyword keyword).1 → (s.readKeyword keyword).2 = e
  refused : ¬ (s.readKeyword keyword).1 → (s.readKeyword keyword).2 = s

/-- **Keywords are whole names.** A keyword is found just where all of the name is the keyword,
character by character and up to the case of ASCII letters. The source stands at the end of the name
then, and has not moved if another name is there. -/
theorem keywords_are_whole_names (s : Source) (keyword : List Char) :
    (∃ name e, s.ReadsName name e) ∧
      ∀ name e, s.ReadsName name e → s.KeywordDecides keyword name e := by
  refine ⟨⟨_, _, readsName_iff.mpr ⟨rfl, rfl⟩⟩, fun name e hname => ?_⟩
  obtain ⟨rfl, rfl⟩ := readsName_iff.mp hname
  have hkeyword := s.readKeyword_eq keyword
  have hword : sameWord (nameText s.rest) keyword ↔
      List.Forall₂ SameUpToCase (nameText s.rest) keyword := sameWord_iff_forall₂
  refine ⟨fun hplace => ?_, ?_, ?_, ?_⟩
  · rw [contentsAt, seek, if_pos hplace]
    rfl
  · rw [hkeyword, ← hword]
    split_ifs with hthere <;> simp [hthere]
  · rw [hkeyword]
    split_ifs with hthere <;> simp
  · rw [hkeyword]
    split_ifs with hthere <;> simp

/-- A name that is spelled with an escape and ends at a backslash before a newline. -/
theorem keywords_are_whole_names_escaped :
    let s : Source := ⟨['i', '\\', '4', '6', ' ', '\\', '\n'], 0⟩
    ∃ name e, s.ReadsName name e ∧ List.Forall₂ SameUpToCase name ['I', 'f'] ∧ e.location = 5 := by
  intro s
  obtain ⟨⟨name, e, hname⟩, hall⟩ := keywords_are_whole_names s ['I', 'f']
  have hdecides := hall name e hname
  have hfound : (s.readKeyword ['I', 'f']).1 := by decide
  have hstop : (s.readKeyword ['I', 'f']).2.location = 5 := by decide
  rw [hdecides.found hfound] at hstop
  exact ⟨name, e, hname, hdecides.found_iff.mp hfound, hstop⟩

end Source

end Stylesheet
