import Stylesheet.Proofs.Decoding

/-!
Tokens that start with a name. What stands at the end of the name, and whether the name spells
`url`, says which of the four kinds the token is. The scanner learns the word from a matcher that is
fed while the name is read; a matcher for keywords and a reader of the characters come to the same.
-/

namespace Stylesheet

open Stylesheet.Text

namespace Lexeme

def Quotes (r : List Char) : Prop := (r.find? fun c => !isBlank c).any isQuote

lemma called_cases (n : ℕ) (r : List Char) :
    Quotes r ∧ called n r = ⟨.function, n, none⟩ ∨
      ¬ Quotes r ∧ (called n r).kind ∈ [.url, .badUrl] := by
  have hdrop : r.drop (blankSize r) = r.dropWhile isBlank := by
    have hleft : (r.takeWhile isBlank ++ r.dropWhile isBlank).drop (blankSize r) =
        r.dropWhile isBlank := List.drop_left
    rwa [List.takeWhile_append_dropWhile] at hleft
  rw [called, hdrop, Quotes, List.find?_not_eq_head?_dropWhile]
  split_ifs with hquote
  · exact .inl ⟨hquote, rfl⟩
  · exact .inr ⟨hquote, url_kind _ _⟩

/-- The code point behind a name, and then the name itself, say what its token is. -/
lemma named_cases (cs : List Char) :
    (cs.drop (nameSize cs)).head? ≠ some '(' ∧ named cs = ⟨.ident, nameSize cs, none⟩ ∨
      ∃ r, cs.drop (nameSize cs) = '(' :: r ∧
        (¬ (sameWord (nameText cs) ['u', 'r', 'l'] ∧ ¬ Quotes r) ∧
            named cs = ⟨.function, nameSize cs + 1, none⟩ ∨
          (sameWord (nameText cs) ['u', 'r', 'l'] ∧ ¬ Quotes r) ∧
            (named cs).kind ∈ [.url, .badUrl]) := by
  rcases hd : cs.drop (nameSize cs) with _ | ⟨c, r⟩
  · exact .inl ⟨by simp, named_of_nil hd⟩
  rw [named_of_cons hd]
  split_ifs with hother hword
  · exact .inl ⟨by simpa using hother, rfl⟩
  · obtain rfl : c = '(' := not_not.mp hother
    refine .inr ⟨r, rfl, ?_⟩
    rcases called_cases (nameSize cs + 1) r with ⟨hquotes, hfunction⟩ | ⟨hquotes, hurl⟩
    · exact .inl ⟨fun h => h.2 hquotes, hfunction⟩
    · exact .inr ⟨⟨hword, hquotes⟩, hurl⟩
  · obtain rfl : c = '(' := not_not.mp hother
    exact .inr ⟨r, rfl, .inl ⟨fun h => hword h.1, rfl⟩⟩

end Lexeme

namespace Source

variable {s e : Source} {name : List Char}

/-- A name that spells `url`, with a parenthesis at its end `e` and no quote behind that. -/
def StartsUrl (name : List Char) (e : Source) : Prop :=
  name.map Char.toLower = ['u', 'r', 'l'] ∧ ¬ Lexeme.Quotes e.rest.tail

/-- What the name at `s`, which reads `name` and ends at `e`, says of a token there that is of the
given kind and ends at `stop`; and that a matcher and a keyword find `url` where the name is that
word. -/
structure NameDecides (s : Source) (name : List Char) (e : Source) (kind : TokenKind)
    (stop : Source) : Prop where
  contents : s.contentsAt .name s.location = .ok name
  ident_iff : kind = .ident ↔ e.peek ≠ some '('
  ident_stop : kind = .ident → stop = e
  url_iff : e.peek = some '(' → (kind ∈ [.url, .badUrl] ↔ StartsUrl name e)
  function : e.peek = some '(' → ¬ StartsUrl name e →
    kind = .function ∧ stop.location = e.location + 1
  matcher_iff : (s.matchUrl .fresh).1.spells ↔ name.map Char.toLower = ['u', 'r', 'l']
  matcher_stop : (s.matchUrl .fresh).2 = e
  keyword : ∃ found r, s.matchKeyword ['u', 'r', 'l'] = .ok (found, r) ∧
    (found ↔ name.map Char.toLower = ['u', 'r', 'l']) ∧ (found → r = e)

/-- The token at `s`, by what stands at the end `e` of its name. -/
lemma token_cases (h : s.token.kind ∈ TokenKind.named) (he : e = s.skip (nameSize s.rest)) :
    e.peek ≠ some '(' ∧ s.token.kind = .ident ∧ s.next = e ∨
      e.peek = some '(' ∧ ¬ StartsUrl (nameText s.rest) e ∧
        s.token.kind = .function ∧ s.next.location = e.location + 1 ∨
      e.peek = some '(' ∧ StartsUrl (nameText s.rest) e ∧ s.token.kind ∈ [.url, .badUrl] := by
  rw [token_kind, lex_kind_named_iff] at h
  have hlex := lex_of_startsName h.1 h.2
  have hrest : e.rest = s.rest.drop (nameSize s.rest) := by rw [he, skip_rest]
  have hword : sameWord (nameText s.rest) ['u', 'r', 'l'] ↔
      (nameText s.rest).map Char.toLower = ['u', 'r', 'l'] := sameWord_iff
  rw [token_kind, next_eq_skip, hlex, StartsUrl, ← hword, peek, hrest]
  rcases Lexeme.named_cases s.rest with ⟨hother, hident⟩ | ⟨r, hr, hcases⟩
  · rw [hident, he]
    exact .inl ⟨hother, rfl, rfl⟩
  · have hparen : e.peek = some '(' := by
      rw [peek, hrest, hr]
      rfl
    have hnext := locationAfter_one (by decide) hparen
    rw [he, skip_locationAfter, ← he] at hnext
    rw [hr]
    rcases hcases with ⟨hnot, hfunction⟩ | ⟨hurl, hkind⟩
    · rw [hfunction]
      exact .inr (.inl ⟨rfl, hnot, rfl, hnext⟩)
    · exact .inr (.inr ⟨rfl, hurl, hkind⟩)

/-- **What a name decides.** -/
lemma nameDecides (h : s.token.kind ∈ TokenKind.named) :
    s.NameDecides (nameText s.rest) (s.skip (nameSize s.rest)) s.token.kind s.next := by
  have hplace : s.location ≤ s.text.length := by
    refine Nat.le_of_lt (kind_ne_eof_iff.mp fun heof => ?_)
    rw [heof] at h
    revert h
    decide
  have hcases := token_cases h rfl
  have hkeyword := matchKeyword_eq hplace ['u', 'r', 'l']
  have hword : sameWord (nameText s.rest) ['u', 'r', 'l'] ↔
      (nameText s.rest).map Char.toLower = ['u', 'r', 'l'] := sameWord_iff
  have hurl : ∀ k ∈ [TokenKind.url, .badUrl], k ≠ .ident ∧ k ≠ .function := by decide
  refine ⟨?_, ?_, ?_, ?_, ?_, ?_, ?_, ?_⟩
  · rw [contentsAt, seek, if_pos hplace]
    rfl
  · grind
  · grind
  · grind
  · grind
  · rw [matchUrl_eq]
    exact UrlMatcher.spells_iff _
  · rw [matchUrl_eq]
  · rw [readKeyword_eq] at hkeyword
    by_cases hthere : sameWord (nameText s.rest) ['u', 'r', 'l']
    · rw [if_pos hthere] at hkeyword
      exact ⟨true, _, hkeyword, by simp [← hword, hthere], fun _ => rfl⟩
    · rw [if_neg hthere] at hkeyword
      exact ⟨false, s, hkeyword, by simp [← hword, hthere], by simp⟩

end Source

/-- **Names decide tokens.** A token is one of the four kinds that start with a name just where a
name can start, but for `-->`; and then the characters of the name and what stands at its end say
which one it is, and where it ends. -/
theorem Scanner.names_decide_tokens (sc : Scanner) :
    ∃ kind last, sc.next = .ok (kind, last) ∧
      kind = sc.source.token.kind ∧ last.source = sc.source.next ∧
      (kind ∈ TokenKind.named ↔ startsName (sc.source.lookahead 3) ∧
        ¬ ['-', '-', '>'] <+: sc.source.text.drop sc.source.location) ∧
      (∃ name e, Yields Source.consumeNameChar sc.source name e) ∧
      (kind ∈ TokenKind.named → ∀ name e, Yields Source.consumeNameChar sc.source name e →
        sc.source.NameDecides name e kind last.source) := by
  refine ⟨_, _, sc.next_eq, rfl, rfl, ?_, ⟨_, _, sc.source.yields_name⟩, ?_⟩
  · have hcdc : ['-', '-', '>'] <+: sc.source.rest ↔
        ['-', '-', '>'] <+: sc.source.text.drop sc.source.location :=
      prefix_chars_decode_iff (List.forall_iff_forall_mem.mp (by decide))
    rw [Source.lookahead_eq, startsName_take, ← hcdc, ← List.isPrefixOf_iff_prefix,
      ← lex_kind_named_iff]
    rfl
  · intro hkind name e hname
    obtain ⟨rfl, rfl⟩ := hname.unique sc.source.yields_name
    exact Source.nameDecides hkind

/-- The blank between `url(` and a quote is given back. -/
example : (Scanner.mk ⟨⟨['u', '\\', '7', '2', ' ', 'L', '(', ' ', '"'], 0⟩, []⟩ 0).next =
    .ok (.function, ⟨⟨⟨['u', '\\', '7', '2', ' ', 'L', '(', ' ', '"'], 7⟩, []⟩, 0⟩) := by
  rw [Scanner.next_eq]
  rfl

end Stylesheet
