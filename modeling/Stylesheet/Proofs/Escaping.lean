import Mathlib.Data.Nat.Digits.Lemmas
import Stylesheet.Proofs.Contents
import Stylesheet.Proofs.Naming

/-!
Hexadecimal escapes can spell any text. Each character is written as its number, and whatever it is,
a quote, a parenthesis, a line ending or no ASCII at all, the scanners see nothing but backslashes,
digits and blanks. Names, strings and urls differ in what may stand bare in them, but they read
escapes in one way, so all of them and the readers of their contents find the same pieces.
-/

namespace Stylesheet.Text

/-! ### Spelling -/

/-- The hexadecimal digits of either case, with their values. -/
def hexNumerals : List (Char × ℕ) :=
  [('0', 0), ('1', 1), ('2', 2), ('3', 3), ('4', 4), ('5', 5), ('6', 6), ('7', 7), ('8', 8),
   ('9', 9), ('a', 10), ('b', 11), ('c', 12), ('d', 13), ('e', 14), ('f', 15),
   ('A', 10), ('B', 11), ('C', 12), ('D', 13), ('E', 14), ('F', 15)]

def blanks : List (List Char) := [[' '], ['\t'], ['\n'], ['\r'], ['\x0c'], ['\r', '\n']]

/-- The ways to escape a character: its number in one to six digits, and a blank, without which six
digits can do. -/
inductive HexEscape : Char → List Char → Prop
  | mk {c : Char} {ds : List (Char × ℕ)} {blank : List Char} (digits : ds ⊆ hexNumerals)
    (ne_nil : ds ≠ []) (length_le : ds.length ≤ 6)
    (value : Nat.ofDigits 16 (ds.map Prod.snd).reverse = c.toNat)
    (ends : blank ∈ blanks ∨ ds.length = 6 ∧ blank = []) :
    HexEscape c ('\\' :: (ds.map Prod.fst ++ blank))

/-- The ways to escape all characters of a text. -/
inductive HexEscaped : List Char → List Char → Prop
  | nil : HexEscaped [] []
  | cons {c : Char} {e s t : List Char} (escape : HexEscape c e) (rest : HexEscaped s t) :
    HexEscaped (c :: s) (e ++ t)

lemma toNat_lt_pow (c : Char) : c.toNat < 16 ^ 6 := by
  have hvalid : c.toNat < 0xd800 ∨ 0xdfff < c.toNat ∧ c.toNat < 0x110000 := c.valid
  omega

/-- A digit with this value. -/
def numeral (v : ℕ) : Char × ℕ := hexNumerals.getD v ('0', 0)

/-- The digits of a number, from the left. -/
def numerals (n : ℕ) : List (Char × ℕ) := (Nat.digits 16 n).reverse.map numeral

lemma numerals_spec (n : ℕ) : numerals n ⊆ hexNumerals ∧
    Nat.ofDigits 16 ((numerals n).map Prod.snd).reverse = n := by
  have hall : ∀ v < 16, numeral v ∈ hexNumerals ∧ (numeral v).2 = v := by decide
  have hdigit : ∀ v ∈ (Nat.digits 16 n).reverse, numeral v ∈ hexNumerals ∧ (numeral v).2 = v :=
    fun v hv => hall v (Nat.digits_lt_base (by decide) (List.mem_reverse.mp hv))
  refine ⟨fun p hp => ?_, ?_⟩
  · obtain ⟨v, hv, rfl⟩ := List.mem_map.mp hp
    exact (hdigit v hv).1
  · have hvalues : (numerals n).map Prod.snd = (Nat.digits 16 n).reverse := by
      rw [numerals, List.map_map]
      exact (List.map_congr_left fun v hv => (hdigit v hv).2).trans (List.map_id _)
    rw [hvalues, List.reverse_reverse, Nat.ofDigits_digits]

lemma length_numerals_le {n : ℕ} (h : n < 16 ^ 6) : (numerals n).length ≤ 6 := by
  rw [numerals, List.length_map, List.length_reverse]
  exact (Nat.digits_length_le_iff (by decide) _).mpr h

lemma exists_hexEscape {c : Char} (hc : c ≠ '\x00') : ∃ e, HexEscape c e := by
  have hnumber : c.toNat ≠ 0 := fun h => hc (Char.toNat_inj.mp h)
  obtain ⟨hdigits, hvalue⟩ := numerals_spec c.toNat
  have hne : numerals c.toNat ≠ [] := by
    simpa [numerals, Nat.digits_ne_nil_iff_ne_zero] using hnumber
  have hends : [' '] ∈ blanks := List.mem_cons_self
  exact ⟨_, .mk hdigits hne (length_numerals_le (toNat_lt_pow c)) hvalue (.inl hends)⟩

lemma HexEscaped.ascii {s t : List Char} (h : HexEscaped s t) : ∀ c ∈ t, c.toNat < 128 := by
  have hblanks : ∀ w ∈ blanks, w.Forall (·.toNat < 128) := by decide
  have hnumerals : ∀ p ∈ hexNumerals, p.1.toNat < 128 := by decide
  induction h with
  | nil => simp
  | cons escape _ ih =>
    intro c hc
    obtain ⟨hds, -, -, -, hends⟩ := escape
    rw [List.mem_append, List.mem_cons, List.mem_append] at hc
    rcases hc with (rfl | hc | hc) | hc
    · decide
    · obtain ⟨p, hp, rfl⟩ := List.mem_map.mp hc
      exact hnumerals p (hds hp)
    · rcases hends with hblank | ⟨-, rfl⟩
      · exact List.forall_iff_forall_mem.mp (hblanks _ hblank) c hc
      · cases hc
    · exact ih c hc

/-- **Every text** without a NUL can be escaped. -/
lemma exists_hexEscaped {s : List Char} (h : '\x00' ∉ s) : ∃ t, HexEscaped s t := by
  induction s with
  | nil => exact ⟨_, .nil⟩
  | cons c s ih =>
    rw [List.mem_cons, not_or] at h
    obtain ⟨e, he⟩ := exists_hexEscape (Ne.symm h.1)
    obtain ⟨t, ht⟩ := ih h.2
    exact ⟨_, .cons he ht⟩

/-! ### Reading one escape -/

lemma numeral_cases {p : Char × ℕ} (h : p ∈ hexNumerals) :
    hexDigit? p.1 = some p.2 ∧ Plain p.1 := by
  have hall : ∀ p ∈ hexNumerals, hexDigit? p.1 = some p.2 ∧ Plain p.1 := by decide
  exact hall p h

lemma hexDigits_numerals {ds : List (Char × ℕ)} {r : List Char} (h : ds ⊆ hexNumerals)
    (hle : ds.length ≤ 6) (hr : ds.length = 6 ∨ ∀ c ∈ r.head?, hexDigit? c = none) :
    hexDigits (ds.map Prod.fst ++ r) = ds.map Prod.snd := by
  unfold hexDigits
  generalize 6 = k at hle hr
  induction ds generalizing k with
  | nil =>
    rcases hr with rfl | hr
    · rfl
    · rcases r with _ | ⟨c, r⟩
      · simp
      · have hc : hexDigit? c = none := hr c rfl
        cases k <;> simp [hc]
  | cons p ds ih =>
    obtain ⟨hp, hds⟩ := List.cons_subset.mp h
    obtain ⟨k, rfl⟩ : ∃ j, k = j + 1 := ⟨k - 1, by rw [List.length_cons] at hle; omega⟩
    simp only [List.length_cons, Nat.add_le_add_iff_right, Nat.add_right_cancel_iff] at hle hr
    simp [(numeral_cases hp).1, ih hds k hle hr]

lemma hexValue_eq (vs : List ℕ) : hexValue vs = Nat.ofDigits 16 vs.reverse := by
  rw [Nat.ofDigits_eq_foldr, List.foldr_reverse, hexValue]
  congr 1
  funext v d
  push_cast
  ring

lemma scalar_toNat {c : Char} (hc : c ≠ '\x00') : scalar c.toNat = c := by
  have hnumber : c.toNat ≠ 0 := fun h => hc (Char.toNat_inj.mp h)
  rw [scalar, if_pos ⟨hnumber, c.valid⟩, Char.ofNat_toNat]

lemma exists_blank {blank : List Char} (h : blank ∈ blanks) :
    ∃ b, chars (decode blank) = [b] ∧ isBlank b ∧ hexDigit? b = none := by
  have hall : ∀ w ∈ blanks, chars (decode w) ∈ [['\n'], ['\t'], [' ']] := by decide
  have hread := hall blank h
  simp only [List.mem_cons, List.not_mem_nil, or_false] at hread
  rcases hread with heq | heq | heq <;> exact ⟨_, heq, by decide, by decide⟩

def NoBlank (r : List Char) : Prop := ∀ c ∈ r.head?, ¬ isBlank c

lemma blankSize_of_noBlank {r : List Char} (h : NoBlank r) : blankSize r = 0 := by
  rcases r with _ | ⟨c, r⟩
  · rfl
  · rw [blankSize, List.takeWhile_cons_of_neg (h c rfl)]
    rfl

lemma escape_numerals {ds : List (Char × ℕ)} {r : List Char} (h : ds ⊆ hexNumerals)
    (hne : ds ≠ []) (hle : ds.length ≤ 6)
    (hr : ds.length = 6 ∨ ∀ c ∈ r.head?, hexDigit? c = none) :
    escape (ds.map Prod.fst ++ r) =
      ⟨scalar (hexValue (ds.map Prod.snd)), ds.length + min 1 (blankSize r)⟩ := by
  have hdigits := hexDigits_numerals h hle hr
  obtain ⟨p, ds, rfl⟩ := List.exists_cons_of_ne_nil hne
  have hdrop : ((p :: ds).map Prod.fst ++ r).drop (ds.length + 1) = r :=
    List.drop_left' (by simp)
  rw [List.map_cons, List.cons_append] at hdigits hdrop ⊢
  simp only [escape, hdigits, List.map_cons, List.length_cons, List.length_map, hdrop]

/-- **An escape**, read before anything but a blank, is all its code points and spells its
character. -/
lemma HexEscape.reads {c : Char} {e : List Char} (h : HexEscape c e) (hc : c ≠ '\x00') :
    ∃ d w, chars (decode e) = '\\' :: d :: w ∧ d ≠ '\n' ∧
      ∀ r, NoBlank r → escapePiece (d :: w ++ r) = ⟨some c, w.length + 2⟩ := by
  obtain ⟨hds, hne, hle, hvalue, hends⟩ := h
  rename_i ds blank
  have hchars : chars (decode ('\\' :: (ds.map Prod.fst ++ blank))) =
      '\\' :: (ds.map Prod.fst ++ chars (decode blank)) := by
    have hplain : ∀ d ∈ ds.map Prod.fst, Plain d := by
      intro d hd
      obtain ⟨q, hq, rfl⟩ := List.mem_map.mp hd
      exact (numeral_cases (hds hq)).2
    rw [decode_cons (by simp), decode_append_plain hplain, chars_cons, chars_append]
    simp [chars, Function.comp_def, normalize]
  have hsize : ∀ r, NoBlank r → escape (ds.map Prod.fst ++ (chars (decode blank) ++ r)) =
      ⟨c, ds.length + (chars (decode blank)).length⟩ := by
    intro r hr
    have hspells : scalar (hexValue (ds.map Prod.snd)) = c := by
      rw [hexValue_eq, hvalue, scalar_toNat hc]
    rcases hends with hblank | ⟨hsix, rfl⟩
    · obtain ⟨b, hb, hclass, hnot⟩ := exists_blank hblank
      have hone := blankSize_pos r hclass
      rw [hb, escape_numerals hds hne hle (.inr (by simpa using hnot)), hspells,
        List.singleton_append, Nat.min_eq_left hone]
      rfl
    · have hzero := blankSize_of_noBlank hr
      rw [escape_numerals hds hne hle (.inl hsix), hspells]
      simp [decode, hzero]
  obtain ⟨p, ds, rfl⟩ := List.exists_cons_of_ne_nil hne
  refine ⟨p.1, ds.map Prod.fst ++ chars (decode blank), hchars, ?_, fun r hr => ?_⟩
  · exact (numeral_cases (hds List.mem_cons_self)).2.1
  · have hescape := hsize r hr
    rw [← List.append_assoc, List.map_cons, List.cons_append] at hescape
    have hlength : (ds.map Prod.fst ++ chars (decode blank)).length + 2 =
        (p :: ds).length + (chars (decode blank)).length + 1 := by
      simp only [List.length_append, List.length_map, List.length_cons]
      omega
    rw [escapePiece, hescape, hlength]

/-! ### Reading one escape after the other -/

lemma HexEscaped.eq_nil_or {s t : List Char} (h : HexEscaped s t) :
    t = [] ∨ ∃ r, t = '\\' :: r := by
  cases h with
  | nil => exact .inl rfl
  | cons escape _ =>
    cases escape
    exact .inr ⟨_, rfl⟩

lemma HexEscaped.head?_cases {s t r : List Char} (h : HexEscaped s t) :
    ∀ c ∈ (chars (decode t) ++ r).head?, c = '\\' ∨ c ∈ r.head? := by
  rcases h.eq_nil_or with rfl | ⟨v, rfl⟩
  · exact fun c hc => .inr hc
  · rw [decode_cons (by simp)]
    rintro c ⟨⟩
    exact .inl rfl

lemma HexEscaped.noBlank {s t r : List Char} (h : HexEscaped s t) (hr : NoBlank r) :
    NoBlank (chars (decode t) ++ r) := by
  intro c hc
  rcases h.head?_cases c hc with rfl | hc
  · decide
  · exact hr c hc

lemma HexEscaped.decode_append {s t : List Char} (h : HexEscaped s t) (e : List Char) :
    decode (e ++ t) = decode e ++ decode t := by
  refine Text.decode_append fun _ => ?_
  rcases h.eq_nil_or with rfl | ⟨v, rfl⟩ <;> simp

/-- A reader to which a backslash is the start of an escape. -/
structure Unescapes (next : List Char → Option Piece) : Prop where
  advances : Advances Piece.size next
  escape {d : Char} (r : List Char) (hd : d ≠ '\n') :
    next ('\\' :: d :: r) = some (escapePiece (d :: r))

/-- **All readers of escapes** find the same pieces in an escaped text, which spell what was
escaped. -/
theorem HexEscaped.pieces {s t : List Char} (h : HexEscaped s t) (hnul : '\x00' ∉ s) :
    ∃ ps, spelled ps = s ∧ extent ps = (decode t).length ∧ ∀ r, NoBlank r → ∀ next,
      Unescapes next → pieces next (chars (decode t) ++ r) = ps ++ Text.pieces next r := by
  induction h with
  | nil => exact ⟨[], rfl, rfl, fun r _ next _ => rfl⟩
  | @cons c e s t escape rest ih =>
    rw [List.mem_cons, not_or] at hnul
    obtain ⟨ps, hspells, hsize, hreads⟩ := ih hnul.2
    obtain ⟨d, w, hchars, hline, hpiece⟩ := escape.reads (Ne.symm hnul.1)
    have hdecode := rest.decode_append e
    have hlength : (decode e).length = w.length + 2 := by
      rw [← List.length_map (f := CodePoint.char)]
      exact congrArg List.length hchars
    refine ⟨⟨some c, w.length + 2⟩ :: ps, ?_, ?_, fun r hr next hnext => ?_⟩
    · rw [← hspells]
      rfl
    · rw [hdecode, List.length_append, extent, hsize, hlength]
    · have hstep : next ('\\' :: (d :: w ++ (chars (decode t) ++ r))) =
          some ⟨some c, w.length + 2⟩ := by
        rw [← hpiece _ (rest.noBlank hr)]
        exact hnext.escape _ hline
      have hunits := units_of_some hnext.advances hstep
      have hdrop : ('\\' :: d :: w ++ (chars (decode t) ++ r)).drop (w.length + 2) =
          chars (decode t) ++ r := List.drop_left
      rw [List.cons_append] at hdrop
      rw [hdrop] at hunits
      rw [hdecode, chars_append, hchars, List.append_assoc]
      exact hunits.trans (congrArg _ (hreads r hr next hnext))

/-- An escaped text is read up to where the reader declines. -/
lemma HexEscaped.pieces_stop {s t r : List Char} {next : List Char → Option Piece}
    (h : HexEscaped s t) (hnul : '\x00' ∉ s) (hnext : Unescapes next) (hr : NoBlank r)
    (hstop : next r = none) :
    spelled (Text.pieces next (chars (decode t) ++ r)) = s ∧
      extent (Text.pieces next (chars (decode t) ++ r)) = (chars (decode t)).length := by
  obtain ⟨ps, hspells, hsize, hreads⟩ := h.pieces hnul
  have hnil : Text.pieces next r = [] := units_of_none _ _ hstop
  rw [hreads r hr next hnext, hnil, List.append_nil, chars, List.length_map]
  exact ⟨hspells, hsize⟩

lemma unescapes_namePiece? : Unescapes namePiece? where
  advances := namePiece?_advances
  escape r hd := by simp [namePiece?, isNameChar, isNameStart, startsEscape, hd]

lemma unescapes_stringPiece? {quote : Char} (h : isQuote quote) :
    Unescapes (stringPiece? quote) where
  advances := stringPiece?_advances quote
  escape r hd := by
    have hslash : '\\' ≠ quote := by
      rintro rfl
      cases h
    simp [stringPiece?, hd, hslash]

lemma unescapes_urlPiece? : Unescapes urlPiece? where
  advances := urlPiece?_advances
  escape r hd := by
    have hbare : ¬ isUrlBreak '\\' := by decide
    simp [urlPiece?, hbare, startsEscape, hd]

lemma unescapes_urlTextPiece? : Unescapes urlTextPiece? where
  advances := urlTextPiece?_advances
  escape _ _ := rfl

end Stylesheet.Text

namespace Stylesheet

open Stylesheet.Text

namespace Source

/-! ### Texts of one token -/

/-- The text can be opened and is one token of the given kind, without an error, which reads
as `value`. -/
structure OneToken (text : List Char) (kind : TokenKind) (value : List Char) : Prop where
  opens : ofChars text = .ok ⟨text, 0⟩
  tokens : (⟨text, 0⟩ : Source).tokens = [⟨kind, ⟨0, text.length⟩, none⟩]
  lexErrors : (⟨text, 0⟩ : Source).lexErrors = []
  reads : (⟨text, 0⟩ : Source).valueAt kind 0 = .ok (some value)

lemma width_take_all (text : List Char) :
    width ((decode text).take (chars (decode text)).length) = text.length := by
  rw [chars, List.length_map, List.take_length, width_decode]

lemma oneToken {text : List Char} {kind : TokenKind} {value : List Char}
    {read : List Char → List Char} (hascii : ∀ c ∈ text, c.toNat < 128) (hne : text ≠ [])
    (hlex : lex (chars (decode text)) = ⟨kind, (chars (decode text)).length, none⟩)
    (hkind : kind.reader? = some read) (hread : read (chars (decode text)) = value) :
    OneToken text kind value := by
  have hlt : (⟨text, 0⟩ : Source).location < (⟨text, 0⟩ : Source).text.length :=
    List.length_pos_iff.mpr hne
  have htoken : (⟨text, 0⟩ : Source).token = ⟨kind, ⟨0, text.length⟩, none⟩ := by
    change (lex (chars (decode text))).token 0 (decode text) = _
    rw [hlex, Lexeme.token, width_take_all]
  have htokens : (⟨text, 0⟩ : Source).tokens = [⟨kind, ⟨0, text.length⟩, none⟩] := by
    rw [tokens_cons hlt, htoken, tokens_of_end]
    rw [next_location, htoken]
    simp [Token.stop, Span.stop, next_text]
  refine ⟨ofChars_eq_ok_iff.mpr ⟨rfl, hascii⟩, htokens, ?_, ?_⟩
  · rw [lexErrors, htokens]
    rfl
  · rw [valueAt, hkind, ← hread]
    rfl

variable {s t : List Char}

lemma nameText_escaped (h : HexEscaped s t) (hnul : '\x00' ∉ s) :
    nameText (chars (decode t)) = s ∧ nameSize (chars (decode t)) = (chars (decode t)).length := by
  have hpieces := h.pieces_stop (r := []) hnul unescapes_namePiece? (by rintro _ ⟨⟩) rfl
  rwa [List.append_nil] at hpieces

lemma lex_escaped (h : HexEscaped s t) (hnul : '\x00' ∉ s) (hne : s ≠ []) :
    lex (chars (decode t)) = .named (chars (decode t)) := by
  cases h with
  | nil => exact absurd rfl hne
  | cons escape rest =>
    rw [List.mem_cons, not_or] at hnul
    obtain ⟨d, w, hchars, hline, -⟩ := escape.reads (Ne.symm hnul.1)
    rw [rest.decode_append, chars_append, hchars]
    refine lex_of_startsName ?_ (by simp)
    simpa [startsName_slash, startsEscape] using hline

lemma oneToken_ident (h : HexEscaped s t) (hnul : '\x00' ∉ s) (hne : s ≠ []) :
    OneToken t .ident s := by
  obtain ⟨htext, hsize⟩ := nameText_escaped h hnul
  have htne : t ≠ [] := by
    rintro rfl
    exact hne htext.symm
  refine oneToken h.ascii htne ?_ rfl htext
  rw [lex_escaped h hnul hne, Lexeme.named_of_nil, hsize]
  rw [hsize, List.drop_length]

lemma readKeyword_escaped (h : HexEscaped s t) (hnul : '\x00' ∉ s) :
    (⟨t, 0⟩ : Source).readKeyword s = (true, ⟨t, t.length⟩) := by
  obtain ⟨htext, hsize⟩ := nameText_escaped h hnul
  have hend : (⟨t, 0⟩ : Source).skip (chars (decode t)).length = ⟨t, t.length⟩ := by
    change (⟨t, 0 + width ((decode t).take _)⟩ : Source) = _
    rw [width_take_all, Nat.zero_add]
  have hrest : (⟨t, 0⟩ : Source).rest = chars (decode t) := rfl
  rw [readKeyword_eq, hrest, htext, if_pos (sameWord_iff.mpr rfl), hsize, hend]

lemma chars_decode_between {u : List Char} (hu : ∀ c ∈ u, Plain c) (t : List Char) {c : Char}
    (hc : Plain c) : chars (decode (u ++ (t ++ [c]))) = u ++ (chars (decode t) ++ [c]) := by
  have hlast : chars (decode [c]) = [c] := by simp [decode, hc.2.2]
  rw [decode_append_plain hu, Text.decode_append, chars_append, chars_append, hlast]
  · simp [chars, Function.comp_def]
  · simpa using fun _ => hc.1

lemma ascii_between (h : HexEscaped s t) {u : List Char} (hu : ∀ c ∈ u, c.toNat < 128) {c : Char}
    (hc : c.toNat < 128) : ∀ d ∈ u ++ (t ++ [c]), d.toNat < 128 := by
  intro d hd
  rw [List.mem_append, List.mem_append, List.mem_singleton] at hd
  rcases hd with hd | hd | rfl
  · exact hu d hd
  · exact h.ascii d hd
  · exact hc

lemma oneToken_string (h : HexEscaped s t) (hnul : '\x00' ∉ s) {q : Char} (hq : isQuote q) :
    OneToken (q :: (t ++ [q])) .string s := by
  have hquote : Plain q ∧ q.toNat < 128 ∧ ¬ isBlank q := by
    rcases isQuote_iff.mp hq with rfl | rfl <;> decide
  have hchars := chars_decode_between (u := [q]) (by simpa using hquote.1) t hquote.1
  have hascii := ascii_between h (u := [q]) (by simpa using hquote.2.1) hquote.2.1
  rw [List.singleton_append] at hchars hascii
  obtain ⟨htext, hsize⟩ := h.pieces_stop hnul (unescapes_stringPiece? hq) (r := [q])
    (by rintro _ ⟨⟩; exact hquote.2.2) (by simp [stringPiece?])
  refine oneToken hascii (List.cons_ne_nil _ _) ?_ rfl ?_
  · have hbody : (chars (decode t) ++ [q]).drop
        (extent (stringPieces q (chars (decode t) ++ [q]))) = [q] := by
      rw [stringPieces, hsize, List.drop_left]
    rw [hchars, List.singleton_append, lex_of_quote hquote.2.2 hq, Lexeme.string_of_cons hbody,
      if_pos rfl, stringPieces, hsize]
    simp [Nat.add_comm]
  · rw [hchars]
    exact htext

lemma name_url (v : List Char) : nameSize ('u' :: 'r' :: 'l' :: '(' :: v) = 3 ∧
    nameText ('u' :: 'r' :: 'l' :: '(' :: v) = ['u', 'r', 'l'] := by
  have hu : namePiece? ('u' :: 'r' :: 'l' :: '(' :: v) = some ⟨some 'u', 1⟩ := rfl
  have hr : namePiece? ('r' :: 'l' :: '(' :: v) = some ⟨some 'r', 1⟩ := rfl
  have hl : namePiece? ('l' :: '(' :: v) = some ⟨some 'l', 1⟩ := rfl
  have hend : namePiece? ('(' :: v) = none := by cases v <;> rfl
  constructor
  · simp [nameSize_of_some hu, nameSize_of_some hr, nameSize_of_some hl,
      Lexeme.nameSize_eq_zero hend]
  · simp [nameText_of_some hu, nameText_of_some hr, nameText_of_some hl, nameText_of_none hend]

lemma lex_url {v : List Char} (hblank : NoBlank v) (hquote : ∀ c ∈ v.head?, ¬ isQuote c) :
    lex ('u' :: 'r' :: 'l' :: '(' :: v) = .url 4 v := by
  obtain ⟨hsize, htext⟩ := name_url v
  have hdrop : ('u' :: 'r' :: 'l' :: '(' :: v).drop (nameSize ('u' :: 'r' :: 'l' :: '(' :: v)) =
      '(' :: v := by
    rw [hsize]
    rfl
  have hany : ¬ v.head?.any isQuote := by
    simpa [Option.any_eq_true] using hquote
  rw [lex_of_startsName rfl (by simp), Lexeme.named_of_cons hdrop, if_neg (by simp), htext,
    if_pos (by decide), hsize, Lexeme.called, blankSize_of_noBlank hblank, List.drop_zero,
    if_neg hany]

lemma oneToken_url (h : HexEscaped s t) (hnul : '\x00' ∉ s) :
    OneToken (['u', 'r', 'l', '('] ++ (t ++ [')'])) .url s := by
  have hparen : NoBlank [')'] := by
    rintro _ ⟨⟩
    decide
  have hblank := h.noBlank hparen
  have hquote : ∀ c ∈ (chars (decode t) ++ [')']).head?, ¬ isQuote c := by
    intro c hc
    rcases h.head?_cases c hc with rfl | ⟨⟨⟩⟩ <;> decide
  have hfront : ['u', 'r', 'l', '('].Forall fun c => Plain c ∧ c.toNat < 128 := by decide
  rw [List.forall_iff_forall_mem] at hfront
  have hchars := chars_decode_between (fun c hc => (hfront c hc).1) t (c := ')') (by decide)
  have hascii := ascii_between h (fun c hc => (hfront c hc).2) (c := ')') (by decide)
  obtain ⟨-, hsize⟩ := h.pieces_stop hnul unescapes_urlPiece? hparen rfl
  obtain ⟨htext, -⟩ := h.pieces_stop hnul unescapes_urlTextPiece? hparen rfl
  refine oneToken hascii (List.cons_ne_nil _ _) ?_ rfl ?_
  · have hbody : (chars (decode t) ++ [')']).drop (extent (urlPieces (chars (decode t) ++ [')']))) =
        [')'] := by
      rw [urlPieces, hsize, List.drop_left]
    have hurl : Lexeme.urlSize (chars (decode t) ++ [')']) = (chars (decode t)).length := by
      rw [Lexeme.urlSize, hbody, urlPieces, hsize]
      rfl
    rw [hchars]
    refine (lex_url hblank hquote).trans ?_
    rw [Lexeme.url_of_cons (c := ')') (r := []), if_pos rfl, hurl]
    · simp
      omega
    · rw [hurl, List.drop_left]
  · rw [hchars, urlText]
    have hname := name_url (chars (decode t) ++ [')'])
    simp only [List.cons_append, List.nil_append, hname.1, List.drop_succ_cons, List.drop_zero,
      blankSize_of_noBlank hblank]
    exact htext

/-- **Hexadecimal escapes can spell any text**, however they are written: alone they are one name,
between quotes one string, and behind `url(` one url, and each of these reads as the text. -/
theorem hex_escapes_spell_any_text (hnul : '\x00' ∉ s) :
    (∃ t, HexEscaped s t) ∧ ∀ t, HexEscaped s t →
      (s ≠ [] → OneToken t .ident s ∧
        (⟨t, 0⟩ : Source).readKeyword s = (true, ⟨t, t.length⟩)) ∧
      (∀ q, isQuote q → OneToken (q :: (t ++ [q])) .string s) ∧
      OneToken (['u', 'r', 'l', '('] ++ (t ++ [')'])) .url s := by
  refine ⟨exists_hexEscaped hnul, fun t ht => ⟨fun hne => ?_, fun q hq => ?_, ?_⟩⟩
  · exact ⟨oneToken_ident ht hnul hne, readKeyword_escaped ht hnul⟩
  · exact oneToken_string ht hnul hq
  · exact oneToken_url ht hnul

/-- A quote, a character that is no ASCII and a line feed; the second escape has no blank, and the
last one has a line ending of two characters for it. -/
theorem hex_escapes_spell_any_text_quote : ∃ t,
    t = ['\\', '2', '2', ' ', '\\', '0', '0', '2', '6', 'a', 'A', '\\', 'a', '\r', '\n'] ∧
    OneToken t .ident ['"', '\u26aa', '\n'] ∧
    OneToken ('"' :: (t ++ ['"'])) .string ['"', '\u26aa', '\n'] ∧
    OneToken (['u', 'r', 'l', '('] ++ (t ++ [')'])) .url ['"', '\u26aa', '\n'] := by
  have hquote := @HexEscape.mk '"' [('2', 2), ('2', 2)] [' '] (by decide) (by decide) (by decide)
    (by decide) (.inl (by decide))
  have hcircle := @HexEscape.mk '\u26aa'
    [('0', 0), ('0', 0), ('2', 2), ('6', 6), ('a', 10), ('A', 10)] [] (by decide) (by decide)
    (by decide) (by decide) (.inr ⟨rfl, rfl⟩)
  have hline := @HexEscape.mk '\n' [('a', 10)] ['\r', '\n'] (by decide) (by decide) (by decide)
    (by decide) (.inl (by decide))
  obtain ⟨hident, hstring, hurl⟩ := (hex_escapes_spell_any_text (by decide)).2 _
    (.cons hquote (.cons hcircle (.cons hline .nil)))
  exact ⟨_, rfl, (hident (by decide)).1, hstring '"' (by decide), hurl⟩

end Source

end Stylesheet
