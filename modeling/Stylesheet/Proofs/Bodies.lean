import Stylesheet.Proofs.Contents
import Stylesheet.Proofs.Naming

/-!
The inside of strings and urls. What a backslash takes is read at once, and any other code point is
read by itself; the first of these glyphs that ends the body says where the token stops. The
scanners get there in several loops, for what is well formed, for blanks and for what is thrown
away, and the readers of the contents cut the text once more by rules of their own; all of them
pass over the same glyphs.
-/

namespace Stylesheet

open Stylesheet.Text

/-- What is read at once: a code point that stands for itself, or all that a backslash takes, with
the character it spells, if it spells one. -/
inductive Glyph
  | bare (c : Char)
  | escaped (c : Option Char)
  deriving DecidableEq, Repr

namespace Glyph

def char? : Glyph → Option Char
  | bare c => some c
  | escaped c => c

def isBlank : Glyph → Bool
  | bare c => Text.isBlank c
  | escaped _ => false

/-- What may stand in a url besides the blanks around it: any escape, but of the code points none
that is a quote, a parenthesis, a blank, a backslash or a control character. -/
def fitsUrl : Glyph → Bool
  | bare c =>
    !(isQuote c || c == '(' || c == ')' || Text.isBlank c || c == '\\' || isNonPrintable c)
  | escaped _ => true

end Glyph

namespace Source

/-- The first glyph inside a string. A backslash takes the newline behind it and spells nothing, as
it does at the end of the text; before anything else it starts an escape. -/
inductive StringGlyph (s : Source) : Glyph → Source → Prop
  | bare {c : Char} {r : Source} (read : s.advance = (some c, r)) (plain : c ≠ '\\') :
    StringGlyph s (.bare c) r
  | continued {r e : Source} (read : s.advance = (some '\\', r))
      (newline : r.advance = (some '\n', e)) : StringGlyph s (.escaped none) e
  | last {r : Source} (read : s.advance = (some '\\', r)) (stop : r.peek = none) :
    StringGlyph s (.escaped none) r
  | escape {c d : Char} {r e : Source} (read : s.advance = (some '\\', r))
      (next : r.peek = some d) (other : d ≠ '\n') (escape : r.readEscape = (c, e)) :
    StringGlyph s (.escaped (some c)) e

/-- The first glyph inside a url. A backslash before a newline stands for itself. -/
inductive UrlGlyph (s : Source) : Glyph → Source → Prop
  | bare {c : Char} {r : Source} (read : s.advance = (some c, r))
      (plain : c = '\\' → r.peek = some '\n') : UrlGlyph s (.bare c) r
  | escape {c : Char} {r e : Source} (read : s.advance = (some '\\', r))
      (other : r.peek ≠ some '\n') (escape : r.readEscape = (c, e)) :
    UrlGlyph s (.escaped (some c)) e

/-- The glyphs from `s` up to the first one that `ends` them, or up to the end of the text, and the
source that stands there. -/
inductive ReadsTo (glyph : Source → Glyph → Source → Prop) (ends : Glyph → Prop) :
    Source → List Glyph → Source → Prop
  | atEnd {s : Source} (h : s.peek = none) : ReadsTo glyph ends s [] s
  | stop {s r : Source} {g : Glyph} (h : glyph s g r) (hg : ends g) : ReadsTo glyph ends s [] s
  | more {s r e : Source} {g : Glyph} {gs : List Glyph} (h : glyph s g r) (hg : ¬ ends g)
      (rest : ReadsTo glyph ends r gs e) : ReadsTo glyph ends s (g :: gs) e

/-! ### Scanners of glyphs -/

variable {s r e : Source}

lemma peek_of_rest {c : Char} {t : List Char} (h : s.rest = c :: t) : s.peek = some c := by
  rw [peek, h]
  rfl

lemma skip_one_rest {c : Char} {t : List Char} (h : s.rest = c :: t) : (s.skip 1).rest = t := by
  rw [skip_rest, h]
  rfl

lemma rest_eq_cons {c : Char} (h : s.advance = (some c, r)) :
    ∃ t, s.rest = c :: t ∧ r.rest = t ∧ r = s.skip 1 := by
  obtain ⟨hpeek, rfl⟩ := Prod.mk.inj h
  obtain ⟨t, ht⟩ := List.head?_eq_some_iff.mp hpeek
  exact ⟨t, ht, skip_one_rest ht, rfl⟩

lemma advance_eq {c : Char} {t : List Char} (h : s.rest = c :: t) :
    s.advance = (some c, s.skip 1) := by
  rw [advance, peek_of_rest h]

lemma peek_eq_none_iff : s.peek = none ↔ s.rest = [] := by
  rw [peek, List.head?_eq_none_iff]

lemma locationAfter_of_end {n : ℕ} (hle : s.location ≤ s.text.length)
    (h : (s.skip n).peek = none) : s.locationAfter n = s.text.length := by
  rw [peek_eq_none_iff, rest_eq_nil_iff] at h
  exact Nat.le_antisymm (locationAfter_le hle n) h

lemma locationAfter_succ {c : Char} (hc : Plain c) {n : ℕ} (h : (s.skip n).peek = some c) :
    s.locationAfter (n + 1) = (s.skip n).location + 1 := by
  rw [← skip_locationAfter]
  exact locationAfter_one hc h

lemma readEscape_eq {t : List Char} (h : s.rest = '\\' :: t) :
    (s.skip 1).readEscape = ((escape t).char, s.skip (escapePiece t).size) := by
  rw [readEscape, skip_one_rest h, skip_skip, escapePiece_size, Nat.add_comm 1]

/-- The scanner `next` goes from glyph to glyph up to the one that ends them. -/
structure Scans (next : List Char → Option Piece) (glyph : Source → Glyph → Source → Prop)
    (ends : Glyph → Prop) : Prop where
  advances : Advances Piece.size next
  exists_glyph {s : Source} : s.peek ≠ none → ∃ g r, glyph s g r
  stops {s r : Source} {g : Glyph} (h : glyph s g r) (hg : ends g) : next s.rest = none
  goes {s r : Source} {g : Glyph} (h : glyph s g r) (hg : ¬ ends g) :
    ∃ n, next s.rest = some ⟨g.char?, n⟩ ∧ r = s.skip n

section

variable {next : List Char → Option Piece} {glyph : Source → Glyph → Source → Prop}
  {ends : Glyph → Prop} {gs : List Glyph}

/-- **What is read**: the pieces of the scanner are the glyphs, and end where these do. -/
theorem ReadsTo.spells (h : Scans next glyph ends) (hreads : ReadsTo glyph ends s gs e) :
    gs.filterMap Glyph.char? = spelled (pieces next s.rest) ∧
      e = s.skip (extent (pieces next s.rest)) := by
  induction hreads with
  | atEnd hend =>
    rw [peek_eq_none_iff.mp hend]
    exact ⟨rfl, (skip_zero _).symm⟩
  | stop hglyph hg =>
    have hnil : pieces next _ = [] := units_of_none _ _ (h.stops hglyph hg)
    rw [hnil]
    exact ⟨rfl, (skip_zero _).symm⟩
  | @more s r e g gs hglyph hg _ ih =>
    obtain ⟨n, hnext, rfl⟩ := h.goes hglyph hg
    have hunits : pieces next s.rest = ⟨g.char?, n⟩ :: pieces next (s.rest.drop n) :=
      units_of_some h.advances hnext
    obtain ⟨hspells, rfl⟩ := ih
    rw [skip_rest] at hspells
    rw [hunits, skip_rest, skip_skip]
    refine ⟨?_, rfl⟩
    rcases hc : g.char? with _ | c
    · rw [List.filterMap_cons_none hc, hspells]
      rfl
    · rw [List.filterMap_cons_some hc, hspells]
      rfl

/-- Whatever the text, it can be read. -/
theorem Scans.exists_readsTo (h : Scans next glyph ends) (s : Source) :
    ∃ gs e, ReadsTo glyph ends s gs e := by
  induction hcs : s.rest using units_induction h.advances generalizing s with
  | stop cs hnone _ =>
    by_cases hend : s.peek = none
    · exact ⟨[], s, .atEnd hend⟩
    · obtain ⟨g, r, hglyph⟩ := h.exists_glyph hend
      by_cases hg : ends g
      · exact ⟨[], s, .stop hglyph hg⟩
      · obtain ⟨n, hnext, -⟩ := h.goes hglyph hg
        rw [hcs, hnone] at hnext
        cases hnext
  | unit cs p hp _ ih =>
    have hend : s.peek ≠ none := by
      rw [Ne, peek_eq_none_iff]
      intro hnil
      have hsize := h.advances hp
      rw [← hcs, hnil, List.length_nil] at hsize
      omega
    obtain ⟨g, r, hglyph⟩ := h.exists_glyph hend
    by_cases hg : ends g
    · have hnone := h.stops hglyph hg
      rw [hcs, hp] at hnone
      cases hnone
    · obtain ⟨n, hnext, rfl⟩ := h.goes hglyph hg
      rw [hcs, hp] at hnext
      cases hnext
      obtain ⟨gs, e, hrest⟩ := ih (s.skip n) (by rw [skip_rest, hcs])
      exact ⟨g :: gs, e, .more hglyph hg hrest⟩

lemma ReadsTo.split {p : Glyph → Bool} (hp : ∀ g, p g → ¬ ends g)
    (h : ReadsTo glyph ends s gs e) :
    ∃ m, ReadsTo glyph (fun g => ¬ p g) s (gs.takeWhile p) m ∧
      ReadsTo glyph ends m (gs.dropWhile p) e := by
  induction h with
  | @atEnd s hend => exact ⟨s, .atEnd hend, .atEnd hend⟩
  | @stop s r g hglyph hg => exact ⟨s, .stop hglyph fun hpg => hp g hpg hg, .stop hglyph hg⟩
  | @more s r e g gs hglyph hg rest ih =>
    by_cases hpg : p g
    · obtain ⟨m, hfront, hback⟩ := ih
      rw [List.takeWhile_cons_of_pos hpg, List.dropWhile_cons_of_pos hpg]
      exact ⟨m, .more hglyph (not_not.mpr hpg) hfront, hback⟩
    · rw [List.takeWhile_cons_of_neg hpg, List.dropWhile_cons_of_neg hpg]
      exact ⟨s, .stop hglyph hpg, .more hglyph hg rest⟩

end

/-! ### Strings -/

def EndsString (quote : Char) (g : Glyph) : Prop := g = .bare quote ∨ g = .bare '\n'

lemma scans_string {quote : Char} (hquote : isQuote quote) :
    Scans (stringPiece? quote) StringGlyph (EndsString quote) where
  advances := stringPiece?_advances quote
  exists_glyph {s} h := by
    obtain ⟨c, hc⟩ := Option.ne_none_iff_exists'.mp h
    obtain ⟨t, ht⟩ := List.head?_eq_some_iff.mp hc
    have hread := advance_eq ht
    by_cases hslash : c = '\\'
    · subst hslash
      rcases hnext : (s.skip 1).peek with _ | d
      · exact ⟨_, _, .last hread hnext⟩
      · by_cases hline : d = '\n'
        · exact ⟨_, _, .continued hread (Prod.ext (hnext.trans (congrArg some hline)) rfl)⟩
        · exact ⟨_, _, .escape hread hnext hline rfl⟩
    · exact ⟨_, _, .bare hread hslash⟩
  stops {s r g} h hg := by
    cases h with
    | @bare c _ read _ =>
      obtain ⟨t, ht, -⟩ := rest_eq_cons read
      rw [ht, stringPiece?_eq_none_iff]
      exact hg.imp Glyph.bare.inj Glyph.bare.inj
    | continued | last | escape => rcases hg with hg | hg <;> cases hg
  goes {s r g} h hg := by
    have hslash : '\\' ≠ quote := by
      rintro rfl
      cases hquote
    cases h with
    | @bare c _ read plain =>
      obtain ⟨t, ht, -, rfl⟩ := rest_eq_cons read
      rw [EndsString, Glyph.bare.injEq, Glyph.bare.injEq] at hg
      exact ⟨1, by simp [ht, stringPiece?, hg, plain, Glyph.char?], rfl⟩
    | continued read newline =>
      obtain ⟨t, ht, hr, rfl⟩ := rest_eq_cons read
      obtain ⟨u, hu, -, rfl⟩ := rest_eq_cons newline
      rw [hr] at hu
      exact ⟨2, by simp [ht, hu, stringPiece?, hslash, Glyph.char?], skip_skip s 1 1⟩
    | last read stop =>
      obtain ⟨t, ht, hr, rfl⟩ := rest_eq_cons read
      rw [peek_eq_none_iff, hr] at stop
      exact ⟨1, by simp [ht, stop, stringPiece?, hslash, Glyph.char?], rfl⟩
    | @escape c d _ _ read next other escape =>
      obtain ⟨t, ht, hr, rfl⟩ := rest_eq_cons read
      obtain ⟨u, hu⟩ := List.head?_eq_some_iff.mp next
      rw [hr] at hu
      rw [readEscape_eq ht] at escape
      cases escape
      refine ⟨(escapePiece t).size, ?_, rfl⟩
      simp [ht, hu, stringPiece?, hslash, other, Glyph.char?, escapePiece]

/-- What the glyphs of a string, read up to `e`, say of the token at `s`, which `quote` opens. -/
structure StringEnds (s : Source) (quote : Char) (gs : List Glyph) (e : Source) : Prop where
  stands : e.peek = some quote ∨ e.peek = some '\n' ∨ e.peek = none
  closed : e.peek = some quote → s.token.kind = .string ∧ s.token.stop = e.location + 1
  broken : e.peek = some '\n' → s.token.kind = .badString ∧ s.token.stop = e.location
  unclosed : e.peek = none → s.token.kind = .string ∧ s.token.stop = s.text.length
  contents : s.contentsAt .string s.location = .ok (gs.filterMap Glyph.char?)
  value : s.valueAt s.token.kind s.location = .ok (some (gs.filterMap Glyph.char?))

variable {quote : Char} {gs : List Glyph}

lemma lex_string (hquote : isQuote quote) (t : List Char) :
    lex (quote :: t) = .string quote t := by
  refine lex_of_quote ?_ hquote
  rcases isQuote_iff.mp hquote with rfl | rfl <;> decide

lemma string_cases (hquote : isQuote quote) {t : List Char} (hs : s.rest = quote :: t)
    (he : e = s.skip (1 + extent (stringPieces quote t))) :
    e.peek = some quote ∧ s.token.kind = .string ∧ s.token.stop = e.location + 1 ∨
      e.peek = some '\n' ∧ s.token.kind = .badString ∧ s.token.stop = e.location ∨
      e.peek = none ∧ s.token.kind = .string ∧ s.token.stop = s.text.length := by
  have hrest : e.rest = t.drop (extent (stringPieces quote t)) := by
    rw [he, skip_rest, hs, Nat.add_comm, List.drop_succ_cons]
  have hend : stringPiece? quote e.rest = none := by
    rw [hrest]
    exact next_drop_extent (stringPiece?_advances quote) t
  rw [token_kind, token_stop, hs, lex_string hquote]
  rcases hd : t.drop (extent (stringPieces quote t)) with _ | ⟨c, u⟩
  · have hpeek : e.peek = none := by rw [peek_eq_none_iff, hrest, hd]
    rw [Lexeme.string_of_nil hd]
    refine .inr (.inr ⟨hpeek, rfl, ?_⟩)
    exact locationAfter_of_end (Nat.le_of_lt (lt_length_of_rest hs)) (he ▸ hpeek)
  · rw [hrest, hd, stringPiece?_eq_none_iff] at hend
    have hpeek : e.peek = some c := peek_of_rest (hrest.trans hd)
    rw [Lexeme.string_of_cons hd]
    split_ifs with hc
    · subst hc
      have hplain : Plain c := by
        rcases isQuote_iff.mp hquote with rfl | rfl <;> decide
      rw [he] at hpeek ⊢
      exact .inl ⟨hpeek, rfl, locationAfter_succ hplain hpeek⟩
    · obtain rfl := hend.resolve_left hc
      rw [he] at hpeek ⊢
      exact .inr (.inl ⟨hpeek, rfl, rfl⟩)

/-- **Strings end by their glyphs.** Whatever follows a quote can be read as glyphs, and where these
end there is the same quote, which closes the string, or a newline, which breaks it off, or the end
of the text; what they spell is what the token says. -/
theorem strings_end_by_glyphs (hquote : isQuote quote) (h : s.peek = some quote) :
    (∃ gs e, (s.skip 1).ReadsTo StringGlyph (EndsString quote) gs e) ∧
      ∀ gs e, (s.skip 1).ReadsTo StringGlyph (EndsString quote) gs e →
        s.StringEnds quote gs e := by
  have hscans := scans_string hquote
  refine ⟨hscans.exists_readsTo _, fun gs e hreads => ?_⟩
  obtain ⟨t, hs⟩ : ∃ t, s.rest = quote :: t := List.head?_eq_some_iff.mp h
  obtain ⟨hspells, he⟩ := hreads.spells hscans
  rw [skip_one_rest hs] at hspells he
  rw [skip_skip] at he
  have hplace : s.location ≤ s.text.length := Nat.le_of_lt (lt_length_of_rest hs)
  have htext : stringText s.rest = gs.filterMap Glyph.char? := by
    rw [hs, hspells]
    rfl
  have hcases := string_cases hquote hs he
  have hkind : s.token.kind ∈ [.string, .badString] := by
    rcases hcases with ⟨-, hkind, -⟩ | ⟨-, hkind, -⟩ | ⟨-, hkind, -⟩ <;> simp [hkind]
  have hline : quote ≠ '\n' := by
    rcases isQuote_iff.mp hquote with rfl | rfl <;> decide
  refine ⟨?_, ?_, ?_, ?_, ?_, ?_⟩
  · rcases hcases with ⟨hpeek, -⟩ | ⟨hpeek, -⟩ | ⟨hpeek, -⟩ <;> simp [hpeek]
  · grind
  · grind
  · grind
  · rw [contentsAt, seek, if_pos hplace, ← htext]
    rfl
  · rw [← htext]
    refine valueAt_location hplace ?_
    rcases List.mem_pair.mp hkind with hkind | hkind <;> rw [hkind] <;> rfl

/-- A string that a form feed breaks off: the backslashes take a newline of two code points, digits
with a newline behind them, and the quote. -/
theorem strings_end_by_glyphs_broken :
    let s : Source :=
      ⟨['\'', 'a', '\\', '\r', '\n', '\\', '2', '7', '\n', '\\', '\'', '\x0c', 'b'], 0⟩
    ∃ gs e, (s.skip 1).ReadsTo StringGlyph (EndsString '\'') gs e ∧ e.peek = some '\n' ∧
      e.location = 11 ∧ gs.filterMap Glyph.char? = ['a', '\'', '\''] := by
  intro s
  obtain ⟨⟨gs, e, hreads⟩, hall⟩ :=
    strings_end_by_glyphs (s := s) (by decide : isQuote '\'') (by decide)
  have hends := hall gs e hreads
  have htoken : s.token.kind = .badString ∧ s.token.stop = 11 := by decide
  have hvalue : s.valueAt s.token.kind s.location = .ok (some ['a', '\'', '\'']) := by decide
  have hbroken : e.peek = some '\n' := by
    have hother : s.token.kind ≠ .string := by simp [htoken.1]
    rcases hends.stands with h | h | h
    · exact absurd (hends.closed h).1 hother
    · exact h
    · exact absurd (hends.unclosed h).1 hother
  refine ⟨gs, e, hreads, hbroken, ?_, ?_⟩
  · rw [← (hends.broken hbroken).2, htoken.2]
  · exact Option.some.inj (Except.ok.inj (hends.value.symm.trans hvalue))

/-! ### Glyphs of urls -/

lemma startsEscape_cons {c : Char} {t : List Char} :
    startsEscape (c :: t) ↔ c = '\\' ∧ t.head? ≠ some '\n' := by
  cases t <;> simp [startsEscape]

lemma UrlGlyph.cases {g : Glyph} (h : s.UrlGlyph g r) :
    (∃ c t, s.rest = c :: t ∧ ¬ startsEscape (c :: t) ∧ g = .bare c ∧ r = s.skip 1) ∨
      ∃ t, s.rest = '\\' :: t ∧ startsEscape ('\\' :: t) ∧
        g = .escaped (escapePiece t).decoded ∧ r = s.skip (escapePiece t).size := by
  cases h with
  | @bare c _ read plain =>
    obtain ⟨t, ht, hr, rfl⟩ := rest_eq_cons read
    rw [peek, hr] at plain
    refine .inl ⟨c, t, ht, ?_, rfl, rfl⟩
    rw [startsEscape_cons]
    rintro ⟨hslash, hother⟩
    exact hother (plain hslash)
  | escape read other escape =>
    obtain ⟨t, ht, hr, rfl⟩ := rest_eq_cons read
    rw [peek, hr] at other
    rw [readEscape_eq ht] at escape
    cases escape
    exact .inr ⟨t, ht, startsEscape_cons.mpr ⟨rfl, other⟩, rfl, rfl⟩

lemma exists_urlGlyph (h : s.peek ≠ none) : ∃ g r, s.UrlGlyph g r := by
  obtain ⟨c, hc⟩ := Option.ne_none_iff_exists'.mp h
  obtain ⟨t, ht⟩ := List.head?_eq_some_iff.mp hc
  have hread := advance_eq ht
  by_cases hescape : c = '\\' ∧ (s.skip 1).peek ≠ some '\n'
  · obtain ⟨rfl, hother⟩ := hescape
    exact ⟨_, _, .escape hread hother rfl⟩
  · rw [not_and, not_not] at hescape
    exact ⟨_, _, .bare hread hescape⟩

lemma scans_remnant : Scans remnantPiece? UrlGlyph (· = .bare ')') where
  advances := remnantPiece?_advances
  exists_glyph := exists_urlGlyph
  stops h hg := by
    rcases h.cases with ⟨c, t, ht, -, rfl, -⟩ | ⟨t, -, -, rfl, -⟩
    · rw [ht, remnantPiece?_eq_none_iff]
      exact Glyph.bare.inj hg
    · cases hg
  goes h hg := by
    rcases h.cases with ⟨c, t, ht, hnot, rfl, rfl⟩ | ⟨t, ht, hescape, rfl, rfl⟩
    · rw [Glyph.bare.injEq] at hg
      exact ⟨1, by simp [ht, remnantPiece?, hg, hnot, Glyph.char?], rfl⟩
    · exact ⟨_, by simp [ht, remnantPiece?, hescape, Glyph.char?], rfl⟩

lemma fitsUrl_bare {c : Char} : (Glyph.bare c).fitsUrl ↔ ¬ isUrlBreak c ∧ c ≠ '\\' := by
  simp [Glyph.fitsUrl, isUrlBreak]
  tauto

lemma scans_url : Scans urlPiece? UrlGlyph (fun g => ¬ g.fitsUrl) where
  advances := urlPiece?_advances
  exists_glyph := exists_urlGlyph
  stops h hg := by
    rcases h.cases with ⟨c, t, ht, hnot, rfl, -⟩ | ⟨t, -, -, rfl, -⟩
    · rw [fitsUrl_bare, not_and, not_not] at hg
      rw [ht, urlPiece?]
      split_ifs with hbreak hslash
      · rfl
      · rfl
      · exact absurd (hg hbreak) hslash
    · exact absurd rfl hg
  goes h hg := by
    rcases h.cases with ⟨c, t, ht, hnot, rfl, rfl⟩ | ⟨t, ht, hescape, rfl, rfl⟩
    · rw [not_not, fitsUrl_bare] at hg
      exact ⟨1, by simp [ht, urlPiece?, hg, Glyph.char?], rfl⟩
    · have hbare : ¬ isUrlBreak '\\' := by decide
      exact ⟨_, by simp [ht, urlPiece?, hbare, hescape, Glyph.char?], rfl⟩

lemma isBlank_slash : ¬ isBlank '\\' := by decide

lemma ReadsTo.blanks (h : ReadsTo UrlGlyph (fun g => ¬ g.isBlank) s gs e) :
    e = s.skip (blankSize s.rest) := by
  induction h with
  | @atEnd s hend =>
    rw [peek_eq_none_iff.mp hend]
    exact (skip_zero s).symm
  | @stop s r g hglyph hg =>
    have hzero : blankSize s.rest = 0 := by
      rcases hglyph.cases with ⟨c, t, ht, -, rfl, -⟩ | ⟨t, ht, -, -, -⟩
      · have hblank : ¬ isBlank c := hg
        simp [ht, blankSize, hblank]
      · simp [ht, blankSize, isBlank_slash]
    rw [hzero, skip_zero]
  | @more s r e g gs hglyph hg _ ih =>
    rw [not_not] at hg
    rcases hglyph.cases with ⟨c, t, ht, -, rfl, rfl⟩ | ⟨t, -, -, rfl, -⟩
    · have hblank : isBlank c := hg
      have hsize : blankSize s.rest = 1 + blankSize t := by
        simp [ht, blankSize, hblank, Nat.add_comm]
      rw [ih, hsize, skip_skip, skip_rest, ht]
      rfl
    · cases hg

end Source

/-! ### The form of a url -/

namespace Glyph

/-- Blanks, then `middle`, all of which may stand in a url, and then blanks. -/
def UrlForm (middle gs : List Glyph) : Prop :=
  ∃ front back, gs = front ++ (middle ++ back) ∧ (∀ g ∈ front, g.isBlank) ∧
    (∀ g ∈ middle, g.fitsUrl) ∧ ∀ g ∈ back, g.isBlank

/-- What may stand in a url, behind the blanks in front. -/
def urlBody (gs : List Glyph) : List Glyph := (gs.dropWhile isBlank).takeWhile fitsUrl

def urlExcess (gs : List Glyph) : List Glyph :=
  ((gs.dropWhile isBlank).dropWhile fitsUrl).dropWhile isBlank

lemma not_fitsUrl_of_isBlank {g : Glyph} (h : g.isBlank) : ¬ g.fitsUrl := by
  cases g with
  | bare c =>
    have hblank : Text.isBlank c := h
    simp [fitsUrl, hblank]
  | escaped c => cases h

/-- **The form of a url** can be had in one way, and shows by what is left. -/
lemma urlForm_iff {middle gs : List Glyph} :
    UrlForm middle gs ↔ middle = urlBody gs ∧ urlExcess gs = [] := by
  constructor
  · rintro ⟨front, back, rfl, hfront, hmiddle, hback⟩
    have hnone : back.dropWhile isBlank = [] := List.dropWhile_eq_nil_iff.mpr hback
    have hskip : (front ++ (middle ++ back)).dropWhile isBlank =
        (middle ++ back).dropWhile isBlank := List.dropWhile_append_of_pos hfront
    rw [urlBody, urlExcess, hskip]
    rcases middle with _ | ⟨g, middle⟩
    · rw [List.nil_append, hnone]
      exact ⟨rfl, rfl⟩
    · have hg : ¬ g.isBlank := fun hblank =>
        not_fitsUrl_of_isBlank hblank (hmiddle g List.mem_cons_self)
      have hstop : back.takeWhile fitsUrl = [] ∧ back.dropWhile fitsUrl = back := by
        rcases back with _ | ⟨b, back⟩
        · exact ⟨rfl, rfl⟩
        · have hb := not_fitsUrl_of_isBlank (hback b List.mem_cons_self)
          exact ⟨List.takeWhile_cons_of_neg hb, List.dropWhile_cons_of_neg hb⟩
      rw [List.cons_append, List.dropWhile_cons_of_neg hg, ← List.cons_append,
        List.takeWhile_append_of_pos hmiddle, List.dropWhile_append_of_pos hmiddle, hstop.1,
        hstop.2, List.append_nil]
      exact ⟨rfl, hnone⟩
  · rintro ⟨rfl, hexcess⟩
    refine ⟨gs.takeWhile isBlank, (gs.dropWhile isBlank).dropWhile fitsUrl, ?_, ?_, ?_, ?_⟩
    · rw [urlBody, List.takeWhile_append_dropWhile, List.takeWhile_append_dropWhile]
    · exact fun g hg => List.mem_takeWhile_imp hg
    · exact fun g hg => List.mem_takeWhile_imp hg
    · exact List.dropWhile_eq_nil_iff.mp hexcess

end Glyph

lemma Lexeme.named_of_url {cs : List Char} (h : (named cs).kind ∈ [.url, .badUrl]) :
    ∃ r, cs.drop (nameSize cs) = '(' :: r ∧ sameWord (nameText cs) ['u', 'r', 'l'] ∧
      named cs = url (nameSize cs + 1 + blankSize r) (r.drop (blankSize r)) := by
  rcases hd : cs.drop (nameSize cs) with _ | ⟨c, r⟩
  · simp [named_of_nil hd] at h
  · rw [named_of_cons hd, called] at h ⊢
    split_ifs at h ⊢ with hother hword hquote
    · simp at h
    · simp at h
    · exact ⟨r, congrArg (· :: r) (not_not.mp hother), hword, rfl⟩
    · simp at h

namespace Source

variable {s b e : Source} {gs : List Glyph}

lemma ReadsTo.eq_nil_iff {next : List Char → Option Piece}
    {glyph : Source → Glyph → Source → Prop} {ends : Glyph → Prop} (h : Scans next glyph ends)
    (hreads : ReadsTo glyph ends s gs e) : gs = [] ↔ next s.rest = none := by
  cases hreads with
  | atEnd hend =>
    refine iff_of_true rfl ?_
    rcases hnext : next s.rest with _ | p
    · rfl
    · have hsize := h.advances hnext
      rw [peek_eq_none_iff.mp hend, List.length_nil] at hsize
      omega
  | stop hglyph hg => exact iff_of_true rfl (h.stops hglyph hg)
  | more hglyph hg _ =>
    obtain ⟨n, hnext, -⟩ := h.goes hglyph hg
    simp [hnext]

/-- What the glyphs of a url pass over, part by part. -/
lemma ReadsTo.parts (h : ReadsTo UrlGlyph (· = .bare ')') b gs e) :
    (Glyph.urlBody gs).filterMap Glyph.char? =
        spelled (urlPieces (b.rest.drop (blankSize b.rest))) ∧
      ReadsTo UrlGlyph (· = .bare ')')
        (b.skip (blankSize b.rest + Lexeme.urlSize (b.rest.drop (blankSize b.rest))))
        (Glyph.urlExcess gs) e := by
  have hblank : ∀ g : Glyph, g.isBlank → g ≠ .bare ')' := by
    rintro _ hg rfl
    cases hg
  have hfits : ∀ g : Glyph, g.fitsUrl → g ≠ .bare ')' := by
    rintro _ hg rfl
    cases hg
  -- blanks, what fits and blanks again, all of them before the parenthesis
  obtain ⟨m, hfront, hrest⟩ := h.split hblank
  obtain ⟨n, hbody, hbehind⟩ := hrest.split hfits
  obtain ⟨k, hback, hexcess⟩ := hbehind.split hblank
  obtain rfl := hfront.blanks
  obtain ⟨hspells, rfl⟩ := hbody.spells scans_url
  obtain rfl := hback.blanks
  rw [skip_rest] at hspells
  simp only [skip_skip, skip_rest] at hexcess
  refine ⟨hspells, ?_⟩
  rw [Lexeme.urlSize, ← Nat.add_assoc, List.drop_drop]
  exact hexcess

/-- What the glyphs behind `url(`, read up to `e`, say of the token at `s`. -/
structure UrlEnds (s : Source) (gs : List Glyph) (e : Source) : Prop where
  stands : e.peek = some ')' ∨ e.peek = none
  closed : e.peek = some ')' → s.token.stop = e.location + 1
  unclosed : e.peek = none → s.token.stop = s.text.length
  kind_iff : s.token.kind = .url ↔ ∃ middle, Glyph.UrlForm middle gs
  bad_iff : s.token.kind = .badUrl ↔ ¬ ∃ middle, Glyph.UrlForm middle gs
  contents : ∀ middle, Glyph.UrlForm middle gs →
    s.contentsAt .url s.location = .ok (middle.filterMap Glyph.char?)

/-- A url ends where its glyphs do: its end shows `m` code points from `s`, and all that is thrown
away ends at `e`. -/
lemma url_cases {n m : ℕ} {body : List Char} (hplace : s.location ≤ s.text.length)
    (hlex : lex s.rest = .url n body) (hbody : s.rest.drop n = body)
    (hm : n + Lexeme.urlSize body = m)
    (he : e = s.skip (m + extent (remnantPieces (s.rest.drop m)))) :
    (s.token.kind = .url ↔ remnantPiece? (s.rest.drop m) = none) ∧
      (e.peek = some ')' ∧ s.token.stop = e.location + 1 ∨
        e.peek = none ∧ s.token.stop = s.text.length) := by
  have hdrop : s.rest.drop m = body.drop (Lexeme.urlSize body) := by
    rw [← hm, ← List.drop_drop, hbody]
  have hrest : e.rest = (s.rest.drop m).drop (extent (remnantPieces (s.rest.drop m))) := by
    rw [he, skip_rest, List.drop_drop]
  rw [token_kind, token_stop, hlex]
  rcases hd : s.rest.drop m with _ | ⟨c, t⟩
  · rw [hd] at hrest he
    rw [Lexeme.url_of_nil (hdrop ▸ hd), hm]
    have hend : e.peek = none := peek_eq_none_iff.mpr hrest
    refine ⟨iff_of_true rfl rfl, .inr ⟨hend, ?_⟩⟩
    exact locationAfter_of_end hplace (he ▸ hend)
  rw [Lexeme.url_of_cons (hdrop ▸ hd), hm, remnantPiece?_eq_none_iff]
  rw [hd] at hrest he
  split_ifs with hc
  · have hnil : remnantPieces (c :: t) = [] :=
      units_of_none _ _ ((remnantPiece?_eq_none_iff c t).mpr hc)
    rw [hnil] at hrest he
    have hparen : e.peek = some ')' := hc ▸ peek_of_rest hrest
    refine ⟨iff_of_true rfl hc, .inl ⟨hparen, ?_⟩⟩
    rw [he] at hparen ⊢
    exact locationAfter_succ (by decide) hparen
  · refine ⟨iff_of_false (by simp [Lexeme.badUrl]) hc, ?_⟩
    have hstop := next_drop_extent remnantPiece?_advances (c :: t)
    rw [← remnantPieces, ← hrest] at hstop
    rw [Lexeme.badUrl, ← hrest]
    rcases htail : e.rest with _ | ⟨d, u⟩
    · have hend : e.peek = none := peek_eq_none_iff.mpr htail
      exact .inr ⟨hend, locationAfter_of_end hplace (he ▸ hend)⟩
    · rw [htail, remnantPiece?_eq_none_iff] at hstop
      have hparen : e.peek = some ')' := hstop ▸ peek_of_rest htail
      refine .inl ⟨hparen, ?_⟩
      rw [he] at hparen ⊢
      exact locationAfter_succ (by decide) hparen

/-- The glyphs behind the parenthesis of a url say what its token is. -/
lemma urlEnds {r : List Char} (hplace : s.location ≤ s.text.length)
    (hbody : s.rest.drop (nameSize s.rest + 1) = r)
    (hlex : lex s.rest = .url (nameSize s.rest + 1 + blankSize r) (r.drop (blankSize r)))
    (hreads : ReadsTo UrlGlyph (· = .bare ')') (s.skip (nameSize s.rest + 1)) gs e) :
    s.UrlEnds gs e := by
  obtain ⟨hspells, hexcess⟩ := hreads.parts
  have hnil := hexcess.eq_nil_iff scans_remnant
  obtain ⟨-, he⟩ := hexcess.spells scans_remnant
  rw [skip_rest, hbody] at hspells
  simp only [skip_skip, skip_rest, hbody, ← Nat.add_assoc] at hnil he
  obtain ⟨hkind, hends⟩ := url_cases hplace hlex (by rw [← List.drop_drop, hbody]) rfl he
  have hform : s.token.kind = .url ↔ ∃ middle, Glyph.UrlForm middle gs := by
    rw [hkind, ← hnil]
    simp only [Glyph.urlForm_iff, exists_eq_left]
  have hkinds : s.token.kind = .url ∨ s.token.kind = .badUrl := by
    have h := Lexeme.url_kind (nameSize s.rest + 1 + blankSize r) (r.drop (blankSize r))
    rwa [← hlex, ← token_kind, List.mem_pair] at h
  refine ⟨?_, ?_, ?_, hform, ?_, ?_⟩
  · exact hends.imp And.left And.left
  · grind
  · grind
  · rw [← hform]
    rcases hkinds with h | h <;> simp [h]
  · intro middle hmiddle
    obtain ⟨rfl, hleft⟩ := Glyph.urlForm_iff.mp hmiddle
    have hstop := hnil.mp hleft
    rw [contentsAt, seek, if_pos hplace, hspells, ← Lexeme.urlTextPieces_of_end]
    · change Except.ok (urlText s.rest) = _
      rw [urlText, hbody]
    · intro c hc
      obtain ⟨t, ht⟩ := List.head?_eq_some_iff.mp hc
      rw [← List.drop_drop, ← List.drop_drop, hbody, ht, remnantPiece?_eq_none_iff] at hstop
      exact hstop

/-- **Urls end by their glyphs.** A token of a url starts with a name that spells `url` and a
parenthesis. Whatever follows can be read as glyphs, up to a parenthesis that no backslash takes or
to the end of the text, and that is where the token stops. It is a good one if the glyphs have the
form of a url, and then what they spell between the blanks is what it says. -/
theorem urls_end_by_glyphs (h : s.token.kind ∈ [.url, .badUrl]) :
    ∃ name b, s.ReadsName name b ∧ name.map Char.toLower = ['u', 'r', 'l'] ∧ b.peek = some '(' ∧
      (∃ gs e, (b.skip 1).ReadsTo UrlGlyph (· = .bare ')') gs e) ∧
      ∀ gs e, (b.skip 1).ReadsTo UrlGlyph (· = .bare ')') gs e → s.UrlEnds gs e := by
  have hnamed : s.token.kind ∈ TokenKind.named := by
    rcases List.mem_pair.mp h with h | h <;> simp [h, TokenKind.named]
  have hplace : s.location ≤ s.text.length := by
    refine Nat.le_of_lt (kind_ne_eof_iff.mp fun heof => ?_)
    simp [heof] at h
  rw [token_kind, lex_kind_named_iff] at hnamed
  have hlex := lex_of_startsName hnamed.1 hnamed.2
  rw [token_kind, hlex] at h
  obtain ⟨r, hr, hword, hurl⟩ := Lexeme.named_of_url h
  have hbody : s.rest.drop (nameSize s.rest + 1) = r := by
    rw [← List.drop_drop, hr]
    rfl
  have hpeek : (s.skip (nameSize s.rest)).peek = some '(' :=
    peek_of_rest ((skip_rest s _).trans hr)
  refine ⟨_, _, readsName_iff.mpr ⟨rfl, rfl⟩, sameWord_iff.mp hword, hpeek,
    scans_remnant.exists_readsTo _, fun gs e hreads => ?_⟩
  rw [skip_skip] at hreads
  exact urlEnds hplace hbody (hlex.trans hurl) hreads

/-- A url whose name is spelled with an escape. One parenthesis is behind a backslash and another is
spelled in digits, with a blank that belongs to them. -/
theorem urls_end_by_glyphs_escapes :
    let s : Source := ⟨['u', '\\', '7', '2', ' ', 'L', '(', '\t', 'a', '\\', ')', '\\', '2', '9',
      ' ', 'b', '\r', '\n', ')', ')'], 0⟩
    ∃ (name : List Char) (b e : Source) (gs middle : List Glyph), s.ReadsName name b ∧
      (b.skip 1).ReadsTo UrlGlyph (· = .bare ')') gs e ∧ e.location = 18 ∧
      Glyph.UrlForm middle gs ∧ middle.filterMap Glyph.char? = ['a', ')', ')', 'b'] := by
  intro s
  obtain ⟨name, b, hname, -, -, ⟨gs, e, hreads⟩, hall⟩ := urls_end_by_glyphs (s := s) (by decide)
  have hends := hall gs e hreads
  have htoken : s.token.kind = .url ∧ s.token.stop = 19 := by decide
  have hcontents : s.contentsAt .url s.location = .ok ['a', ')', ')', 'b'] := by decide
  obtain ⟨middle, hmiddle⟩ := hends.kind_iff.mp htoken.1
  refine ⟨name, b, e, gs, middle, hname, hreads, ?_, hmiddle, ?_⟩
  · have hstop := htoken.2
    rcases hends.stands with h | h
    · rw [hends.closed h] at hstop
      exact Nat.succ.inj hstop
    · rw [hends.unclosed h] at hstop
      cases hstop
  · exact Except.ok.inj ((hends.contents middle hmiddle).symm.trans hcontents)

end Source

end Stylesheet
