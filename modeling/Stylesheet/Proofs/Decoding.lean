import Stylesheet.Proofs.Scanning

/-!
What tokens say, read one character after the other. A reader of names, strings or urls keeps a
source of its own and gives the next character each time it is asked; a string may pass over
several ends of lines before it has one. What they give until they stop is what the pieces of the
text spell.
-/

namespace Stylesheet

open Stylesheet.Text

/-- A state `a` that is asked again and again gives the characters `cs`, and stops in `e`. -/
inductive Yields {σ : Type} (next : σ → Option Char × σ) : σ → List Char → σ → Prop
  | stop {a e : σ} (h : next a = (none, e)) : Yields next a [] e
  | more {a b e : σ} {c : Char} {cs : List Char} (h : next a = (some c, b))
      (rest : Yields next b cs e) : Yields next a (c :: cs) e

namespace Yields

variable {σ : Type} {next : σ → Option Char × σ} {a b e e' : σ} {cs ds : List Char}

lemma unique (h : Yields next a cs e) (h' : Yields next a ds e') : cs = ds ∧ e = e' := by
  induction h generalizing ds e' with
  | stop h =>
    cases h' with
    | stop h' =>
      rw [h] at h'
      exact ⟨rfl, congrArg Prod.snd h'⟩
    | more h' _ =>
      rw [h] at h'
      cases congrArg Prod.fst h'
  | more h _ ih =>
    cases h' with
    | stop h' =>
      rw [h] at h'
      cases congrArg Prod.fst h'
    | more h' rest' =>
      rw [h] at h'
      obtain ⟨hc, rfl⟩ := Prod.mk.inj h'
      obtain ⟨rfl, rfl⟩ := ih rest'
      exact ⟨congrArg (· :: _) (Option.some.inj hc), rfl⟩

lemma of_eq (hnext : next a = next b) (h : Yields next b cs e) : Yields next a cs e := by
  cases h with
  | stop h => exact .stop (hnext.trans h)
  | more h rest => exact .more (hnext.trans h) rest

end Yields

/-- The inside of a string, behind what is read of it; `quote` is what ends it. -/
structure StringChars where
  source : Source
  quote : Option Char
  done : Bool

namespace StringChars

/-- The first code point is the quote, whatever that is. -/
def start (s : Source) : StringChars := ⟨s.advance.2, s.advance.1, false⟩

def next (it : StringChars) : Option Char × StringChars :=
  if it.done then (none, it)
  else
    match _h : it.source.advance with
    | (none, r) => (none, ⟨r, it.quote, true⟩)
    | (some c, r) =>
      if some c = it.quote ∨ c = '\n' then (none, ⟨r, it.quote, true⟩)
      else if c = '\\' then
        match r.peek with
        | none => (none, ⟨r, it.quote, true⟩)
        | some d =>
          if d = '\n' then next ⟨r.advance.2, it.quote, false⟩
          else
            let (c, r) := r.consumeEscape
            (some c, ⟨r, it.quote, false⟩)
      else (some c, ⟨r, it.quote, false⟩)
termination_by it.source.rest.length
decreasing_by exact Nat.lt_of_le_of_lt (r.skip_le 1) (Source.advance_lt ‹_›)

end StringChars

/-- The inside of an unquoted url, behind what is read of it. -/
structure UrlChars where
  source : Source
  done : Bool

namespace UrlChars

/-- The name, its parenthesis and the blanks behind it are passed over. -/
def start (s : Source) : UrlChars := ⟨s.passName.advance.2.passWhile isBlank, false⟩

def next (it : UrlChars) : Option Char × UrlChars :=
  if it.done then (none, it)
  else
    match it.source.advance with
    | (none, r) => (none, ⟨r, true⟩)
    | (some c, r) =>
      if c = '\\' then
        let (c, r) := r.consumeEscape
        (some c, ⟨r, false⟩)
      else if c = ')' ∨ isBlank c then (none, ⟨r, true⟩)
      else (some c, ⟨r, false⟩)

end UrlChars

namespace Source

variable {s : Source} {cs : List Char} {kind : TokenKind} {reading : Reading}

/-- The characters at `s` that a reader of this sort gives. -/
inductive Collects (s : Source) : Reading → List Char → Prop
  | name {cs : List Char} {e : Source} (h : Yields consumeNameChar s cs e) : Collects s .name cs
  | string {cs : List Char} {e : StringChars} (h : Yields StringChars.next (.start s) cs e) :
    Collects s .string cs
  | url {cs : List Char} {e : UrlChars} (h : Yields UrlChars.next (.start s) cs e) :
    Collects s .url cs

/-- What a token of this kind at `s` says. -/
inductive Says (s : Source) : TokenKind → List Char → Prop
  | name {kind : TokenKind} {cs : List Char} (hkind : kind ∈ [.ident, .function])
      (h : s.Collects .name cs) : Says s kind cs
  | behind {kind : TokenKind} {cs : List Char}
      (hkind : kind ∈ [.atKeyword, .hashId, .hashUnrestricted])
      (h : s.advance.2.Collects .name cs) : Says s kind cs
  | string {kind : TokenKind} {cs : List Char} (hkind : kind ∈ [.string, .badString])
      (h : s.Collects .string cs) : Says s kind cs
  | url {cs : List Char} (h : s.Collects .url cs) : Says s .url cs
  | delim : Says s .delim [s.advance.1.getD '\x00']

/-! ### Names -/

/-- **Names**: their characters come one by one. -/
lemma yields_name (s : Source) :
    Yields consumeNameChar s (nameText s.rest) (s.skip (nameSize s.rest)) := by
  induction hcs : s.rest using units_induction namePiece?_advances generalizing s with
  | stop cs hnone _ =>
    rw [nameText_of_none hnone, Lexeme.nameSize_eq_zero hnone, skip_zero]
    exact .stop (consumeNameChar_of_none (hcs ▸ hnone))
  | unit cs p hp _ ih =>
    obtain ⟨c, hc⟩ := exists_of_namePiece? hp
    have hrest := ih (s.skip p.size) (by rw [skip_rest, hcs])
    rw [hc] at hp
    rw [nameText_of_some hp, nameSize_of_some hp]
    rw [skip_skip] at hrest
    exact .more (consumeNameChar_of_some (hcs ▸ hp)) hrest

end Source

namespace StringChars

variable {s : Source} {quote c : Char} {t : List Char} {p : Piece}

lemma next_of_nil (hs : s.rest = []) : (next ⟨s, some quote, false⟩).1 = none := by
  rw [next, if_neg (by simp), Source.advance_of_nil hs]

lemma next_of_stop (hs : s.rest = c :: t) (hstop : stringPiece? quote (c :: t) = none) :
    (next ⟨s, some quote, false⟩).1 = none := by
  rw [stringPiece?_eq_none_iff] at hstop
  rw [next, if_neg (by simp), Source.advance_eq hs]
  simp only [Option.some.injEq, hstop, if_true]

/-- What the next piece is to the reader: a character of the string, a line that goes on, or a
backslash at the end of the text. -/
lemma next_of_piece (hp : stringPiece? quote s.rest = some p) :
    (∃ c, p.decoded = some c ∧
        next ⟨s, some quote, false⟩ = (some c, ⟨s.skip p.size, some quote, false⟩)) ∨
      (p.decoded = none ∧ next ⟨s, some quote, false⟩ = next ⟨s.skip p.size, some quote, false⟩) ∨
      (p.decoded = none ∧ s.rest.drop p.size = [] ∧ (next ⟨s, some quote, false⟩).1 = none) := by
  rcases hs : s.rest with _ | ⟨c, t⟩
  · rw [hs] at hp
    cases hp
  have hrest := Source.skip_one_rest hs
  simp only [hs, stringPiece?] at hp
  rw [next, if_neg (by simp), Source.advance_eq hs]
  split_ifs at hp with hend hslash
  · subst hslash
    rcases t with _ | ⟨d, t⟩
    · cases hp
      refine .inr (.inr ⟨rfl, rfl, ?_⟩)
      simp only [Option.some.injEq, hend, Source.peek_eq_none_iff.mpr hrest]
      rfl
    · simp only at hp
      split_ifs at hp with hline
      · cases hp
        refine .inr (.inl ⟨rfl, ?_⟩)
        simp only [Option.some.injEq, hend, Source.peek_of_rest hrest, hline, Source.advance,
          Source.skip_skip]
        rfl
      · cases hp
        refine .inl ⟨_, rfl, ?_⟩
        simp only [Option.some.injEq, hend, Source.peek_of_rest hrest, hline,
          Source.consumeEscape_skip hs]
        rfl
  · cases hp
    refine .inl ⟨c, rfl, ?_⟩
    simp only [Option.some.injEq, hend, hslash]
    rfl

/-- **Strings**: what their pieces spell comes one by one. -/
lemma yields_string (s : Source) (quote : Char) :
    ∃ e, Yields next ⟨s, some quote, false⟩ (spelled (stringPieces quote s.rest)) e := by
  induction hcs : s.rest using units_induction (stringPiece?_advances quote) generalizing s with
  | stop cs hnone hnil =>
    have hstop : (next ⟨s, some quote, false⟩).1 = none := by
      rcases cs with _ | ⟨c, t⟩
      · exact next_of_nil hcs
      · exact next_of_stop hcs hnone
    rw [stringPieces, pieces, hnil]
    exact ⟨_, .stop (Prod.ext hstop rfl)⟩
  | unit cs p hp hunits ih =>
    obtain ⟨e, hrest⟩ := ih (s.skip p.size) (by rw [Source.skip_rest, hcs])
    have hpieces : spelled (stringPieces quote cs) =
        p.decoded.toList ++ spelled (stringPieces quote (cs.drop p.size)) := by
      rw [stringPieces, pieces, hunits]
      rcases hd : p.decoded with _ | c
      · exact List.filterMap_cons_none hd
      · exact List.filterMap_cons_some hd
    rw [hpieces]
    rcases next_of_piece (hcs ▸ hp) with ⟨c, hc, hnext⟩ | ⟨hnone, hnext⟩ | ⟨hnone, hnil, hstop⟩
    · rw [hc]
      exact ⟨e, .more hnext hrest⟩
    · rw [hnone]
      exact ⟨e, hrest.of_eq hnext⟩
    · rw [hcs] at hnil
      rw [hnone, hnil]
      exact ⟨_, .stop (Prod.ext hstop rfl)⟩

lemma yields_start (s : Source) : ∃ e, Yields next (start s) (stringText s.rest) e := by
  rcases hs : s.rest with _ | ⟨quote, t⟩
  · have hstart : (start s).source = s := by rw [start, Source.advance_of_nil hs]
    have hnext : (next (start s)).1 = none := by
      rw [next, if_neg (by simp [start]), hstart, Source.advance_of_nil hs]
    exact ⟨_, .stop (Prod.ext hnext rfl)⟩
  · have hbody := yields_string (s.skip 1) quote
    rw [Source.skip_one_rest hs] at hbody
    rwa [start, Source.advance_eq hs]

end StringChars

namespace UrlChars

/-- **Urls**: what their pieces spell comes one by one. -/
lemma yields_url (s : Source) :
    ∃ e, Yields next ⟨s, false⟩ (spelled (pieces urlTextPiece? s.rest)) e := by
  induction hcs : s.rest using units_induction urlTextPiece?_advances generalizing s with
  | stop cs hnone hnil =>
    have hstop : (next ⟨s, false⟩).1 = none := by
      rw [next, if_neg (by simp)]
      rcases cs with _ | ⟨c, t⟩
      · rw [Source.advance_of_nil hcs]
      · rw [urlTextPiece?_eq_none_iff] at hnone
        have hslash : c ≠ '\\' := by
          rintro rfl
          revert hnone
          decide
        simp only [Source.advance_eq hcs, hslash, hnone, if_false, if_true]
    rw [pieces, hnil]
    exact ⟨_, .stop (Prod.ext hstop rfl)⟩
  | unit cs p hp hunits ih =>
    obtain ⟨e, hrest⟩ := ih (s.skip p.size) (by rw [Source.skip_rest, hcs])
    have hnext : ∃ c, p.decoded = some c ∧ next ⟨s, false⟩ = (some c, ⟨s.skip p.size, false⟩) := by
      rcases cs with _ | ⟨c, t⟩
      · cases hp
      · rw [urlTextPiece?] at hp
        rw [next, if_neg (by simp), Source.advance_eq hcs]
        split_ifs at hp with hslash hend
        · cases hp
          subst hslash
          simp only [Source.consumeEscape_skip hcs, if_true]
          exact ⟨_, rfl, rfl⟩
        · cases hp
          simp only [hslash, hend, if_false]
          exact ⟨c, rfl, rfl⟩
    obtain ⟨c, hc, hnext⟩ := hnext
    have hpieces : spelled (pieces urlTextPiece? cs) =
        c :: spelled (pieces urlTextPiece? (cs.drop p.size)) := by
      rw [pieces, hunits]
      exact List.filterMap_cons_some hc
    rw [hpieces]
    exact ⟨e, .more hnext hrest⟩

lemma yields_start (s : Source) : ∃ e, Yields next (start s) (urlText s.rest) e := by
  have hrest : (start s).source.rest = (s.rest.drop (nameSize s.rest + 1)).drop
      (blankSize (s.rest.drop (nameSize s.rest + 1))) := by
    change (Source.passWhile isBlank (s.passName.skip 1)).rest = _
    rw [Source.passName_eq, Source.skip_skip, Source.passWhile_eq, Source.skip_rest,
      Source.skip_rest]
    rfl
  have hbody := yields_url (start s).source
  rwa [hrest] at hbody

end UrlChars

namespace Source

variable {s : Source} {cs : List Char} {kind : TokenKind} {reading : Reading}

/-- **Readers** give the contents that are read at once. -/
theorem collects_iff : s.Collects reading cs ↔ cs = reading.read s.rest := by
  constructor
  · intro h
    cases h with
    | name h => exact (h.unique s.yields_name).1
    | string h =>
      obtain ⟨e, hall⟩ := StringChars.yields_start s
      exact (h.unique hall).1
    | url h =>
      obtain ⟨e, hall⟩ := UrlChars.yields_start s
      exact (h.unique hall).1
  · rintro rfl
    cases reading with
    | name => exact .name s.yields_name
    | string =>
      obtain ⟨e, hall⟩ := StringChars.yields_start s
      exact .string hall
    | url =>
      obtain ⟨e, hall⟩ := UrlChars.yields_start s
      exact .url hall

lemma says_iff : s.Says kind cs ↔ ∃ read, kind.reader? = some read ∧ cs = read s.rest := by
  have hbehind : s.advance.2.rest = s.rest.drop 1 := s.skip_rest 1
  have hdelim : s.advance.1.getD '\x00' = s.rest.headD '\x00' := by
    rw [advance, peek]
    rcases s.rest with _ | ⟨c, t⟩ <;> rfl
  constructor
  · intro h
    cases h with
    | name hkind h =>
      obtain rfl := collects_iff.mp h
      simp only [List.mem_cons, List.not_mem_nil, or_false] at hkind
      rcases hkind with rfl | rfl <;> exact ⟨_, rfl, rfl⟩
    | behind hkind h =>
      obtain rfl := collects_iff.mp h
      simp only [List.mem_cons, List.not_mem_nil, or_false] at hkind
      rw [hbehind]
      rcases hkind with rfl | rfl | rfl <;> exact ⟨_, rfl, rfl⟩
    | string hkind h =>
      obtain rfl := collects_iff.mp h
      simp only [List.mem_cons, List.not_mem_nil, or_false] at hkind
      rcases hkind with rfl | rfl <;> exact ⟨_, rfl, rfl⟩
    | url h => exact ⟨_, rfl, collects_iff.mp h⟩
    | delim =>
      rw [hdelim]
      exact ⟨_, rfl, rfl⟩
  · rintro ⟨read, hread, rfl⟩
    cases kind with
    | ident | function =>
      cases hread
      exact .name (by decide) (collects_iff.mpr rfl)
    | atKeyword | hashId | hashUnrestricted =>
      cases hread
      exact .behind (by decide) (collects_iff.mpr (by rw [hbehind]; rfl))
    | string | badString =>
      cases hread
      exact .string (by decide) (collects_iff.mpr rfl)
    | url =>
      cases hread
      exact .url (collects_iff.mpr rfl)
    | delim =>
      cases hread
      simp only [← hdelim]
      exact .delim
    | _ => cases hread

/-- **What a token says** is what the reader for its kind gives. -/
theorem valueAt_iff {location : ℕ} (h : location ≤ s.text.length) :
    s.valueAt kind location = .ok (some cs) ↔ (Source.mk s.text location).Says kind cs := by
  have hseek : s.seek location = .ok ⟨s.text, location⟩ := if_pos h
  rw [says_iff, valueAt]
  rcases kind.reader? with _ | read
  · simp
  · simp only [hseek, Except.map, Except.ok.injEq, Option.some.injEq, exists_eq_left', eq_comm]

end Source

end Stylesheet
