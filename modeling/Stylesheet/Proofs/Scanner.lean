import Stylesheet.Proofs.Bodies

/-!
Scanning code point by code point. A scanner looks ahead on a copy of its source, consumes what it
takes in loops, and goes back where it has read too far: to the start of a token whose first code
point does not say enough, to a newline inside a string, and to the arguments of `url(` before a
quote. Whether a name spells `url` is found out while the name is read.
-/

namespace Stylesheet

open Stylesheet.Text

/-- Compares a name with `url`, one character after the other. -/
structure UrlMatcher where
  matched : ℕ
  failed : Bool
  deriving DecidableEq, Repr

namespace UrlMatcher

def keyword : List Char := ['u', 'r', 'l']

def fresh : UrlMatcher := ⟨0, false⟩

def push (m : UrlMatcher) (c : Char) : UrlMatcher :=
  match keyword[m.matched]? with
  | some expected =>
    if !m.failed && sameLetter c expected then { m with matched := m.matched + 1 }
    else { m with failed := true }
  | none => { m with failed := true }

def spells (m : UrlMatcher) : Bool := !m.failed && m.matched == keyword.length

end UrlMatcher

def Text.continuesName (ahead : List Char) : Bool :=
  ahead.head?.any isNameChar || startsEscape ahead

lemma Text.continuesName_take (cs : List Char) :
    continuesName (cs.take 2) = (namePiece? cs).isSome := by
  rcases cs with _ | ⟨c, r⟩
  · rfl
  · have hescape : startsEscape ((c :: r).take 2) = startsEscape (c :: r) := by
      rcases r with _ | ⟨d, r⟩ <;> rfl
    rw [continuesName, hescape, namePiece?]
    split_ifs with hname hslash <;> simp [*]

namespace Source

variable {s r : Source} {c : Char} {t : List Char}

/-! ### Escapes and the characters of a name -/

/-- The next `n` code points, or as many as there are. -/
def lookahead (s : Source) : ℕ → List Char
  | 0 => []
  | n + 1 =>
    match s.advance with
    | (some c, r) => c :: r.lookahead n
    | (none, _) => []

/-- Consumes at most `n` hexadecimal digits behind those that have the value `v`. -/
def consumeDigits (s : Source) (v : ℕ) : ℕ → ℕ × Source
  | 0 => (v, s)
  | n + 1 =>
    match s.peek.bind hexDigit? with
    | some d => s.advance.2.consumeDigits (v * 16 + d) n
    | none => (v, s)

/-- Consumes an escape whose backslash is already consumed. -/
def consumeEscape (s : Source) : Char × Source :=
  match s.advance with
  | (none, r) => (replacement, r)
  | (some c, r) =>
    match hexDigit? c with
    | none => (c, r)
    | some d =>
      let (v, r) := r.consumeDigits d 5
      (scalar v, if r.peek.any isBlank then r.advance.2 else r)

/-- Consumes one character of a name, if the name goes on. -/
def consumeNameChar (s : Source) : Option Char × Source :=
  let ahead := s.lookahead 2
  if ahead.head?.any isNameChar then s.advance
  else if startsEscape ahead then
    let (c, r) := s.advance.2.consumeEscape
    (some c, r)
  else (none, s)

/-- Consumes the characters of a name as long as they are those of `keyword`. -/
def consumeAll (s : Source) : (keyword : List Char) → Bool × Source
  | [] => (true, s)
  | k :: ks =>
    match s.consumeNameChar with
    | (some c, r) => if sameLetter c k then r.consumeAll ks else (false, r)
    | (none, r) => (false, r)

/-- Consumes a name that spells `keyword`, or goes back to where it starts. -/
def matchKeyword (s : Source) (keyword : List Char) : Except SourceError (Bool × Source) :=
  let (matched, r) := s.consumeAll keyword
  if matched && !continuesName (r.lookahead 2) then return (true, r)
  else do
    let back ← r.seek s.location
    return (false, back)

lemma lookahead_eq (s : Source) (n : ℕ) : s.lookahead n = s.rest.take n := by
  induction n generalizing s with
  | zero => rfl
  | succ n ih =>
    rcases hs : s.rest with _ | ⟨c, t⟩
    · rw [lookahead, advance, peek_eq_none_iff.mpr hs]
      rfl
    · rw [lookahead, advance_eq hs]
      change c :: (s.skip 1).lookahead n = _
      rw [ih, skip_one_rest hs]
      rfl

lemma skip_of_nil (h : s.rest = []) (n : ℕ) : s.skip n = s := by
  have hahead : s.ahead = [] := List.map_eq_nil_iff.mp h
  rw [skip, locationAfter, hahead]
  simp

lemma skip_min_one (s : Source) (p : Char → Bool) :
    (if s.peek.any p then s.advance.2 else s) =
      s.skip (min 1 (s.rest.takeWhile p).length) := by
  rcases hs : s.rest with _ | ⟨c, t⟩
  · rw [peek_eq_none_iff.mpr hs]
    exact (skip_zero s).symm
  · rw [peek_of_rest hs, List.takeWhile_cons]
    by_cases hc : p c
    · simp [hc, advance]
    · simp [hc, skip_zero]

/-- The values of the hexadecimal digits at the front, at most `n` of them. -/
def digitValues (n : ℕ) (cs : List Char) : List ℕ :=
  ((cs.take n).takeWhile fun c => (hexDigit? c).isSome).filterMap hexDigit?

lemma digitValues_cons (n : ℕ) (c : Char) (r : List Char) :
    digitValues (n + 1) (c :: r) = match hexDigit? c with
      | some d => d :: digitValues n r
      | none => [] := by
  rcases hc : hexDigit? c with _ | d <;> simp [digitValues, hc]

lemma consumeDigits_eq (s : Source) (v n : ℕ) : s.consumeDigits v n =
    ((digitValues n s.rest).foldl (fun v d => v * 16 + d) v,
      s.skip (digitValues n s.rest).length) := by
  induction n generalizing s v with
  | zero => exact Prod.ext rfl (skip_zero s).symm
  | succ n ih =>
    rcases hs : s.rest with _ | ⟨c, t⟩
    · rw [consumeDigits, peek_eq_none_iff.mpr hs]
      exact Prod.ext rfl (skip_zero s).symm
    · rw [consumeDigits, peek_of_rest hs, digitValues_cons, Option.bind_some]
      rcases hexDigit? c with _ | d
      · exact Prod.ext rfl (skip_zero s).symm
      · change (s.skip 1).consumeDigits (v * 16 + d) n = _
        rw [ih, skip_one_rest hs, skip_skip, Nat.add_comm 1]
        rfl

lemma escape_of_other (hc : hexDigit? c = none) (t : List Char) : escape (c :: t) = ⟨c, 1⟩ := by
  have hdigits : hexDigits (c :: t) = [] := by
    rw [hexDigits, ← digitValues, digitValues_cons, hc]
  simp only [escape, hdigits]

lemma escape_of_digit {d : ℕ} (hc : hexDigit? c = some d) (t : List Char) : escape (c :: t) =
    ⟨scalar ((digitValues 5 t).foldl (fun v d => v * 16 + d) d),
      (digitValues 5 t).length + 1 + min 1 (blankSize (t.drop (digitValues 5 t).length))⟩ := by
  have hdigits : hexDigits (c :: t) = d :: digitValues 5 t := by
    rw [hexDigits, ← digitValues, digitValues_cons, hc]
  simp only [escape, hdigits, hexValue, List.foldl_cons, List.length_cons, List.drop_succ_cons,
    Nat.zero_mul, Nat.zero_add]

/-- **Escapes**: consumed digit by digit, an escape is the one that is read at once. -/
theorem consumeEscape_eq (s : Source) : s.consumeEscape = s.readEscape := by
  rcases hs : s.rest with _ | ⟨c, t⟩
  · rw [consumeEscape, readEscape, advance, peek_eq_none_iff.mpr hs, hs, skip_of_nil hs]
    exact Prod.ext rfl (skip_zero s).symm
  · rw [consumeEscape, readEscape, advance_eq hs, hs]
    rcases hc : hexDigit? c with _ | d
    · simp only [hc, escape_of_other hc]
    · simp only [hc, escape_of_digit hc, consumeDigits_eq, skip_min_one, skip_rest, hs, skip_skip,
        Nat.add_comm 1, List.drop_succ_cons, List.drop_zero, blankSize]

/-- **The characters of a name** are those that the name is cut into. -/
theorem consumeNameChar_eq (s : Source) : s.consumeNameChar = s.readNameChar := by
  rcases hs : s.rest with _ | ⟨c, t⟩
  · rw [consumeNameChar, readNameChar, lookahead_eq, hs]
    rfl
  · have hescape : startsEscape ((c :: t).take 2) = startsEscape (c :: t) := by
      rcases t with _ | ⟨d, t⟩ <;> rfl
    rw [consumeNameChar, readNameChar, lookahead_eq, hs, hescape, advance_eq hs, namePiece?]
    by_cases hname : isNameChar c
    · simp [hname]
    · by_cases hslash : startsEscape (c :: t)
      · simp [hname, hslash, consumeEscape_eq, readEscape, skip_one_rest hs, skip_skip, escapePiece,
          Nat.add_comm 1]
      · simp [hname, hslash]

lemma consumeNameChar_lt (h : s.consumeNameChar = (some c, r)) :
    r.rest.length < s.rest.length := by
  rw [consumeNameChar_eq, readNameChar] at h
  rcases hp : namePiece? s.rest with _ | p
  · rw [hp] at h
    cases congrArg Prod.fst h
  · rw [hp] at h
    obtain ⟨-, rfl⟩ := Prod.mk.inj h
    have hadvance := namePiece?_advances hp
    rw [skip_rest, List.length_drop]
    omega

/-- The comparison with a keyword gives up where the sizes do. -/
lemma exists_consumeAll (s : Source) (keyword : List Char) :
    ∃ n, (s.consumeAll keyword).2 = s.skip n ∧ keywordSize? keyword s.rest =
      if (s.consumeAll keyword).1 && !(namePiece? (s.skip n).rest).isSome then some n else none := by
  induction keyword generalizing s with
  | nil =>
    refine ⟨0, (skip_zero s).symm, ?_⟩
    rw [skip_zero, keywordSize?, consumeAll]
    rcases namePiece? s.rest <;> rfl
  | cons k ks ih =>
    rcases hp : namePiece? s.rest with _ | p
    · refine ⟨0, ?_, ?_⟩ <;>
        simp [consumeAll, consumeNameChar_eq, readNameChar, hp, keywordSize?, skip_zero]
    · obtain ⟨c, hc⟩ := exists_of_namePiece? hp
      have hread : s.consumeNameChar = (some c, s.skip p.size) := by
        rw [consumeNameChar_eq, readNameChar, hp, hc]
      rw [hc] at hp
      rw [consumeAll, hread, keywordSize?, hp]
      by_cases hsame : sameLetter c k
      · obtain ⟨n, hn, hsize⟩ := ih (s.skip p.size)
        rw [skip_skip] at hn hsize
        rw [skip_rest] at hsize
        refine ⟨p.size + n, ?_, ?_⟩
        · simpa [hsame] using hn
        · simp only [hsame, if_true, hsize]
          split_ifs <;> rfl
      · exact ⟨p.size, by simp [hsame], by simp [hsame]⟩

/-- **Keywords**: comparing a name as it comes, and going back from one that differs, is the same as
looking for the keyword first. -/
theorem matchKeyword_eq (h : s.location ≤ s.text.length) (keyword : List Char) :
    s.matchKeyword keyword = .ok (s.readKeyword keyword) := by
  obtain ⟨n, hn, hsize⟩ := exists_consumeAll s keyword
  rw [matchKeyword, readKeyword, hsize]
  rcases hall : s.consumeAll keyword with ⟨matched, r⟩
  rw [hall] at hn
  obtain rfl : r = s.skip n := hn
  simp only [lookahead_eq, continuesName_take]
  split_ifs
  · rfl
  · have hback : (s.skip n).seek s.location = .ok s := if_pos h
    rw [hback]
    rfl

/-! ### Loops -/

lemma advance_lt (h : s.advance = (some c, r)) : r.rest.length < s.rest.length := by
  obtain ⟨t, ht, hr, -⟩ := rest_eq_cons h
  rw [ht, hr]
  exact Nat.lt_succ_self _

lemma skip_lt (h : s.rest ≠ []) : (s.skip 1).rest.length < s.rest.length := by
  rw [skip_rest, List.length_drop]
  have hpos := List.length_pos_of_ne_nil h
  omega

lemma skip_le (s : Source) (n : ℕ) : (s.skip n).rest.length ≤ s.rest.length := by
  rw [skip_rest, List.length_drop]
  exact Nat.sub_le _ _

lemma consumeEscape_le (s : Source) : s.consumeEscape.2.rest.length ≤ s.rest.length := by
  rw [consumeEscape_eq]
  exact s.skip_le _

def passWhile (p : Char → Bool) (s : Source) : Source :=
  match _h : s.advance with
  | (some c, r) => if p c then r.passWhile p else s
  | (none, _) => s
termination_by s.rest.length
decreasing_by exact advance_lt ‹_›

def passName (s : Source) : Source :=
  match _h : s.consumeNameChar with
  | (some _, r) => r.passName
  | (none, r) => r
termination_by s.rest.length
decreasing_by exact consumeNameChar_lt ‹_›

/-- Consumes a name and compares it with `url` on the way. -/
def matchUrl (s : Source) (m : UrlMatcher) : UrlMatcher × Source :=
  match _h : s.consumeNameChar with
  | (some c, r) => r.matchUrl (m.push c)
  | (none, r) => (m, r)
termination_by s.rest.length
decreasing_by exact consumeNameChar_lt ‹_›

def passFraction (s : Source) : Source :=
  if startsFraction (s.lookahead 2) then s.advance.2.passWhile Char.isDigit else s

def passExponent (s : Source) : Source :=
  match s.lookahead 3 with
  | [] => s
  | mark :: ahead =>
    if (mark = 'e' ∨ mark = 'E') ∧
        (startsDigits ahead ∨ ahead.head?.any isSign ∧ startsDigits ahead.tail) then
      let s := s.advance.2
      let s := if startsDigits ahead then s else s.advance.2
      s.passWhile Char.isDigit
    else s

def passNumber (s : Source) : Source :=
  let s := if s.peek.any isSign then s.advance.2 else s
  (s.passWhile Char.isDigit).passFraction.passExponent

/-- Consumes the rest of a comment with its terminator, or all there is if it has none. -/
def passComment (s : Source) : Bool × Source :=
  match _h : s.advance with
  | (some c, r) => if c = '*' ∧ r.peek = some '/' then (true, r.advance.2) else r.passComment
  | (none, r) => (false, r)
termination_by s.rest.length
decreasing_by exact advance_lt ‹_›

/-- Consumes what is left of a malformed url. -/
def passRemnant (s : Source) : Source :=
  match _h : s.advance with
  | (some c, r) =>
    if c = ')' then r
    else if startsEscape (c :: r.lookahead 1) then r.consumeEscape.2.passRemnant
    else r.passRemnant
  | (none, r) => r
termination_by s.rest.length
decreasing_by
  · exact Nat.lt_of_le_of_lt (consumeEscape_le _) (advance_lt ‹_›)
  · exact advance_lt ‹_›

lemma passComment_le (s : Source) : s.passComment.2.rest.length ≤ s.rest.length := by
  fun_induction passComment s with
  | case1 s c r h hc => exact Nat.le_trans (r.skip_le 1) (Nat.le_of_lt (advance_lt h))
  | case2 s c r h hc ih => exact Nat.le_trans ih (Nat.le_of_lt (advance_lt h))
  | case3 s r h =>
    obtain ⟨-, rfl⟩ := Prod.mk.inj h
    exact s.skip_le 1

end Source

/-! ### The scanner -/

/-- A lexer in the middle of a token. -/
structure Scanner extends Lexer where
  /-- Where the token starts. -/
  start : ℕ

namespace Scanner

variable (sc : Scanner)

def moveTo (s : Source) : Scanner := { sc with source := s }

/-- An error is recorded at the start of the token. -/
def error (kind : LexErrorKind) : Scanner := { sc with errors := sc.errors ++ [⟨kind, sc.start⟩] }

def reconsume : Except SourceError Scanner := do
  let s ← sc.source.seek sc.start
  return sc.moveTo s

/-- The inside of a string. Its newline is left for the next token. -/
def string (sc : Scanner) (quote : Char) : Except SourceError (TokenKind × Scanner) :=
  match _h : sc.source.advance with
  | (none, r) => return (.string, (sc.moveTo r).error .unterminatedString)
  | (some c, r) =>
    if c = quote then return (.string, sc.moveTo r)
    else if c = '\n' then do
      let before ← r.seek sc.source.location
      return (.badString, (sc.moveTo before).error .badString)
    else if c = '\\' then
      match r.peek with
      | none => (sc.moveTo r).string quote
      | some d =>
        if d = '\n' then (sc.moveTo r.advance.2).string quote
        else (sc.moveTo r.consumeEscape.2).string quote
    else (sc.moveTo r).string quote
termination_by sc.source.rest.length
decreasing_by
  · exact Source.advance_lt ‹_›
  · exact Nat.lt_of_le_of_lt (r.skip_le 1) (Source.advance_lt ‹_›)
  · exact Nat.lt_of_le_of_lt r.consumeEscape_le (Source.advance_lt ‹_›)
  · exact Source.advance_lt ‹_›

def badUrl : TokenKind × Scanner :=
  let failed := sc.error .badUrl
  (.badUrl, failed.moveTo sc.source.passRemnant)

/-- The inside of a url, behind its parenthesis and the blanks there. -/
def url (sc : Scanner) : TokenKind × Scanner :=
  match _h : sc.source.advance with
  | (none, r) => (.url, (sc.moveTo r).error .unterminatedUrl)
  | (some c, r) =>
    if c = ')' then (.url, sc.moveTo r)
    else if isBlank c then
      let r := r.passWhile isBlank
      match r.peek with
      | none => (.url, (sc.moveTo r).error .unterminatedUrl)
      | some d => if d = ')' then (.url, sc.moveTo r.advance.2) else (sc.moveTo r).badUrl
    else if isQuote c ∨ c = '(' then (sc.moveTo r).badUrl
    else if startsEscape (c :: r.lookahead 1) then (sc.moveTo r.consumeEscape.2).url
    else if c = '\\' ∨ isNonPrintable c then (sc.moveTo r).badUrl
    else (sc.moveTo r).url
termination_by sc.source.rest.length
decreasing_by
  · exact Nat.lt_of_le_of_lt r.consumeEscape_le (Source.advance_lt ‹_›)
  · exact Source.advance_lt ‹_›

/-- A run of comments, behind its first slash. -/
def comments (sc : Scanner) : TokenKind × Scanner :=
  match _h : sc.source.advance.2.passComment with
  | (false, r) => (.comments, (sc.moveTo r).error .unterminatedComment)
  | (true, r) =>
    if _hnext : r.lookahead 2 = ['/', '*'] then (sc.moveTo r.advance.2).comments
    else (.comments, sc.moveTo r)
termination_by sc.source.rest.length
decreasing_by
  have hle := sc.source.advance.2.passComment_le
  rw [_h] at hle
  have hrest : r.rest ≠ [] := by
    intro hnil
    rw [Source.lookahead_eq, hnil] at _hnext
    cases _hnext
  exact Nat.lt_of_lt_of_le (r.skip_lt hrest) (Nat.le_trans hle (sc.source.skip_le 1))

def numeric : TokenKind × Scanner :=
  let s := sc.source.passNumber
  let ahead := s.lookahead 3
  if startsName ahead then (.dimension, sc.moveTo s.passName)
  else if ahead.head? = some '%' then (.percentage, sc.moveTo s.advance.2)
  else (.number, sc.moveTo s)

/-- A name, and what its token turns out to be. Before a quote the blanks behind `url(` are given
back. -/
def identLike : Except SourceError (TokenKind × Scanner) :=
  let (matcher, s) := sc.source.matchUrl .fresh
  if s.peek ≠ some '(' then return (.ident, sc.moveTo s)
  else
    let arguments := s.advance.2
    if !matcher.spells then return (.function, sc.moveTo arguments)
    else
      let s := arguments.passWhile isBlank
      if s.peek.any isQuote then do
        let back ← s.seek arguments.location
        return (.function, sc.moveTo back)
      else return (sc.moveTo s).url

/-- A token, by its first code point. -/
def tokenKind : Except SourceError (TokenKind × Scanner) :=
  let (first, r) := sc.source.advance
  let read := sc.moveTo r
  match first with
  | some '\n' | some '\t' | some ' ' => return (.whitespace, sc.moveTo (r.passWhile isBlank))
  | some '"' => read.string '"'
  | some '\'' => read.string '\''
  | some '#' =>
    if continuesName (r.lookahead 2) then
      let kind := if startsName (r.lookahead 3) then .hashId else .hashUnrestricted
      return (kind, sc.moveTo r.passName)
    else return (.delim, read)
  | some '(' => return (.leftParen, read)
  | some ')' => return (.rightParen, read)
  | some '[' => return (.leftBracket, read)
  | some ']' => return (.rightBracket, read)
  | some '\x7b' => return (.leftBrace, read)
  | some '\x7d' => return (.rightBrace, read)
  | some ',' => return (.comma, read)
  | some ':' => return (.colon, read)
  | some ';' => return (.semicolon, read)
  | some '+' =>
    if startsNumber ('+' :: r.lookahead 2) then do
      let again ← read.reconsume
      return again.numeric
    else return (.delim, read)
  | some '.' =>
    if startsNumber ('.' :: r.lookahead 2) then do
      let again ← read.reconsume
      return again.numeric
    else return (.delim, read)
  | some '-' =>
    let ahead := r.lookahead 2
    if startsNumber ('-' :: ahead) then do
      let again ← read.reconsume
      return again.numeric
    else
      let (cdc, s) := r.readLiteral ['-', '>']
      if cdc then return (.cdc, sc.moveTo s)
      else if startsName ('-' :: ahead) then do
        let again ← read.reconsume
        again.identLike
      else return (.delim, read)
  | some '/' => if r.peek = some '*' then return read.comments else return (.delim, read)
  | some '<' =>
    let (cdo, s) := r.readLiteral ['!', '-', '-']
    if cdo then return (.cdo, sc.moveTo s) else return (.delim, read)
  | some '@' =>
    if startsName (r.lookahead 3) then return (.atKeyword, sc.moveTo r.passName)
    else return (.delim, read)
  | some '\\' =>
    if startsEscape ('\\' :: r.lookahead 1) then do
      let again ← read.reconsume
      again.identLike
    else return (.delim, read.error .invalidEscape)
  | none => return (.eof, read)
  | some c =>
    if c.isDigit then do
      let again ← read.reconsume
      return again.numeric
    else if isNameStart c then do
      let again ← read.reconsume
      again.identLike
    else return (.delim, read)

/-- Reads one token; it starts where the scanner stands. -/
def next : Except SourceError (TokenKind × Scanner) :=
  ({ sc with start := sc.source.location } : Scanner).tokenKind

/-- The kinds and the starts of the next `n` tokens, and the scanner behind them. -/
def run (sc : Scanner) : ℕ → Except SourceError (List (TokenKind × ℕ) × Scanner)
  | 0 => return ([], sc)
  | n + 1 => do
    let (kind, sc) ← sc.next
    let (tokens, last) ← sc.run n
    return ((kind, sc.start) :: tokens, last)

end Scanner

end Stylesheet
