import Mathlib.Logic.Relation
import Stylesheet.Proofs.Correspondence

/-!
Line endings of every kind read alike. A text and the same text with only line feeds in it have the
same code points, each of them one character wide in the second; so the two are in step, and reading
them comes to the same. The cursor moves by whole code points, so it never stops inside a pair of a
carriage return and a line feed unless it starts there.
-/

namespace Stylesheet.Text

/-- The text with a line feed for each pair of a carriage return and a line feed, for each carriage
return that is left and for each form feed. -/
def unifyNewlines : List Char → List Char
  | [] => []
  | '\r' :: '\n' :: r => '\n' :: unifyNewlines r
  | c :: r => (if c = '\r' ∨ c = '\x0c' then '\n' else c) :: unifyNewlines r

/-- Where a place of the text is when its newlines are unified. -/
def newlinePlace (text : List Char) (p : ℕ) : ℕ := (unifyNewlines (text.take p)).length

def SplitsPair (text : List Char) (p : ℕ) : Prop :=
  text[p - 1]? = some '\r' ∧ text[p]? = some '\n'

instance (text : List Char) (p : ℕ) : Decidable (SplitsPair text p) :=
  inferInstanceAs (Decidable (_ ∧ _))

lemma mem_unifyNewlines {c : Char} {t : List Char} (h : c ∈ unifyNewlines t) :
    c = '\n' ∨ c ∈ t := by
  fun_induction unifyNewlines t with
  | case1 => cases h
  | case2 r ih =>
    rcases List.mem_cons.mp h with rfl | h
    · exact .inl rfl
    · exact (ih h).imp_right fun hr => List.mem_cons_of_mem _ (List.mem_cons_of_mem _ hr)
  | case3 d r hd ih =>
    rcases List.mem_cons.mp h with rfl | h
    · split_ifs
      · exact .inl rfl
      · exact .inr List.mem_cons_self
    · exact (ih h).imp_right (List.mem_cons_of_mem d)

lemma decode_unifyNewlines (t : List Char) :
    decode (unifyNewlines t) = (decode t).map fun p => ⟨p.char, 1⟩ := by
  fun_induction unifyNewlines t with
  | case1 => rfl
  | case2 r ih =>
    rw [decode_cons (by simp), ih, decode]
    rfl
  | case3 c r hc ih =>
    have hreturn : c = '\r' → r.head? ≠ some '\n' := by
      rintro rfl hline
      obtain ⟨r, rfl⟩ := List.head?_eq_some_iff.mp hline
      exact hc r rfl rfl
    have hplain : (if c = '\r' ∨ c = '\x0c' then '\n' else c) ≠ '\r' := by
      split_ifs with hnewline
      · decide
      · exact fun h => hnewline (.inl h)
    have hsame : normalize (if c = '\r' ∨ c = '\x0c' then '\n' else c) = normalize c := by
      unfold normalize
      split_ifs <;> simp_all
    rw [decode_cons fun h => absurd h hplain, ih, decode_cons hreturn, hsame]
    rfl

lemma width_map_one (ps : List CodePoint) :
    width (ps.map fun p => ⟨p.char, 1⟩) = ps.length := by
  induction ps with
  | nil => rfl
  | cons p ps ih => rw [List.map_cons, width_cons, ih, List.length_cons, Nat.add_comm]

lemma length_unifyNewlines (t : List Char) : (unifyNewlines t).length = (decode t).length := by
  rw [← width_decode, decode_unifyNewlines, width_map_one]

/-- The first `k` code points of both texts end at corresponding places. -/
lemma newlinePlace_width (t : List Char) (k : ℕ) :
    newlinePlace t (width ((decode t).take k)) = width ((decode (unifyNewlines t)).take k) := by
  rw [newlinePlace, length_unifyNewlines, decode_take_width, decode_unifyNewlines, ← List.map_take,
    width_map_one]

/-! ### Pairs -/

lemma not_splitsPair_zero (t : List Char) : ¬ SplitsPair t 0 := by
  rintro ⟨hreturn, hline⟩
  rw [hline] at hreturn
  cases hreturn

lemma splitsPair_drop {t : List Char} {p q : ℕ} (hq : 0 < q) :
    SplitsPair (t.drop p) q ↔ SplitsPair t (p + q) := by
  unfold SplitsPair
  rw [List.getElem?_drop, List.getElem?_drop, Nat.add_sub_assoc hq]

lemma not_splitsPair_width (t : List Char) (k : ℕ) :
    ¬ SplitsPair t (width ((decode t).take k)) := by
  fun_induction decode t generalizing k with
  | case1 => exact fun h => by cases h.2
  | case2 r ih =>
    cases k with
    | zero => exact not_splitsPair_zero _
    | succ k =>
      rw [List.take_succ_cons, width_cons]
      rcases Nat.eq_zero_or_pos (width ((decode r).take k)) with hzero | hpos
      · rw [hzero]
        exact fun h => by cases h.1
      · rw [← splitsPair_drop hpos]
        exact ih k
  | case3 c r hc ih =>
    cases k with
    | zero => exact not_splitsPair_zero _
    | succ k =>
      rw [List.take_succ_cons, width_cons]
      rcases Nat.eq_zero_or_pos (width ((decode r).take k)) with hzero | hpos
      · rw [hzero]
        rintro ⟨hreturn, hline⟩
        obtain ⟨r, rfl⟩ := List.head?_eq_some_iff.mp ((List.head?_eq_getElem?).trans hline)
        exact hc r (Option.some.inj hreturn) rfl
      · rw [← splitsPair_drop hpos]
        exact ih k

end Stylesheet.Text

namespace Stylesheet

open Stylesheet.Text

/-! ### Moves of the cursor -/

/-- One move of a cursor: reading a code point, a run of code points, an escape, a character of a
name, a word, a literal or a token. Literals have no line endings in them. -/
inductive Source.Step (s : Source) : Source → Prop
  | advance : s.Step s.advance.2
  | advanceWhile (p : Char → Bool) : s.Step (s.advanceWhile p)
  | escape : s.Step s.readEscape.2
  | nameChar : s.Step s.readNameChar.2
  | keyword (word : List Char) : s.Step (s.readKeyword word).2
  | literal (word : List Char) (h : '\r' ∉ word) : s.Step (s.readLiteral word).2
  | token : s.Step s.next

/-- What reading from a source on stays out of: its cursor does not stop inside a pair, neither
between its moves, nor inside of tokens, nor while a tree is read turn by turn. -/
structure Source.KeepsPairs (s : Source) : Prop where
  moves : ∀ c, Relation.ReflTransGen Source.Step s c → ¬ SplitsPair s.text c.location
  tokens : ∀ n k, ¬ SplitsPair s.text (((Lexer.ofSource s).after n).source.locationAfter k)
  turns : ∀ list n r, Reader.after s list n = .ok r →
    ¬ SplitsPair s.text r.lexer.source.location

namespace Source

variable {s c : Source}

lemma not_splitsPair_locationAfter (h : ¬ SplitsPair s.text s.location) (k : ℕ) :
    ¬ SplitsPair s.text (s.locationAfter k) := by
  rcases Nat.eq_zero_or_pos (width (s.ahead.take k)) with hzero | hpos
  · rwa [locationAfter, hzero]
  · rw [locationAfter, ← splitsPair_drop hpos]
    exact not_splitsPair_width _ k

lemma not_splitsPair_literal (h : ¬ SplitsPair s.text s.location) {word : List Char}
    (hword : '\r' ∉ word) : ¬ SplitsPair s.text (s.readLiteral word).2.location := by
  unfold readLiteral
  split_ifs with hthere
  · rcases Nat.eq_zero_or_pos word.length with hzero | hpos
    · rwa [hzero]
    · rw [← splitsPair_drop hpos]
      rintro ⟨hreturn, -⟩
      obtain ⟨r, hr⟩ := List.isPrefixOf_iff_prefix.mp hthere
      rw [← hr, List.getElem?_append_left (by omega)] at hreturn
      exact hword (List.mem_of_getElem? hreturn)
  · exact h

/-- **One move** leaves the text as it is and the cursor out of pairs. -/
lemma Step.keeps (hstep : s.Step c) (h : ¬ SplitsPair s.text s.location) :
    c.text = s.text ∧ ¬ SplitsPair s.text c.location := by
  cases hstep with
  | advance | advanceWhile | escape | token => exact ⟨rfl, not_splitsPair_locationAfter h _⟩
  | nameChar =>
    unfold readNameChar
    split
    · exact ⟨rfl, not_splitsPair_locationAfter h _⟩
    · exact ⟨rfl, h⟩
  | keyword word =>
    unfold readKeyword
    split
    · exact ⟨rfl, not_splitsPair_locationAfter h _⟩
    · exact ⟨rfl, h⟩
  | literal word hword =>
    refine ⟨?_, not_splitsPair_literal h hword⟩
    unfold readLiteral
    split_ifs <;> rfl

/-- **All moves** do. -/
lemma steps_keep (hsteps : Relation.ReflTransGen Step s c) (h : ¬ SplitsPair s.text s.location) :
    c.text = s.text ∧ ¬ SplitsPair s.text c.location := by
  induction hsteps with
  | refl => exact ⟨rfl, h⟩
  | tail _ hstep ih =>
    obtain ⟨htext, hkeeps⟩ := ih
    rw [← htext] at hkeeps ⊢
    exact hstep.keeps hkeeps

end Source

namespace Lexer

lemma source_of_seek {l l' : Lexer} {location : ℕ} {f : SourceError → Error}
    (h : (l.seek location).mapError f = .ok l') : l'.source = ⟨l.source.text, location⟩ := by
  unfold seek Source.seek at h
  split_ifs at h
  · cases h
    rfl
  · cases h

lemma steps_after (l : Lexer) (n : ℕ) :
    Relation.ReflTransGen Source.Step l.source (l.after n).source := by
  induction n with
  | zero => exact .refl
  | succ n ih => exact ih.tail .token

lemma steps_nextMaterial (l : Lexer) : ∃ k : Lexer, l.nextMaterial = k.next ∧
    Relation.ReflTransGen Source.Step l.source k.source := by
  fun_induction nextMaterial l with
  | case1 l h ih =>
    obtain ⟨k, hnext, hsteps⟩ := ih
    exact ⟨k, hnext, .head .token hsteps⟩
  | case2 l h => exact ⟨l, rfl, .refl⟩

end Lexer

namespace Reader

variable {r r' : Reader}

/-- A token is taken behind itself or, if it is handed back, before itself. -/
lemma source_of_take {k : Lexer} {frame : Frame}
    (h : (Reader.mk k.next.2 r.machine r.findings).take frame k.next.1 = .ok r') :
    r'.lexer.source = k.source.next ∨ r'.lexer.source = k.source := by
  unfold take at h
  split at h
  · split_ifs at h
    · cases h
      exact .inl rfl
    · obtain ⟨m, -, h⟩ := exists_of_bind_eq_ok h
      cases h
      exact .inl rfl
    · obtain ⟨l, hl, h⟩ := exists_of_bind_eq_ok h
      obtain ⟨m, -, h⟩ := exists_of_bind_eq_ok h
      cases h
      have hback := Lexer.source_of_seek hl
      exact .inr hback
  · obtain ⟨m, -, h⟩ := exists_of_bind_eq_ok h
    cases h
    exact .inl rfl

/-- **A turn** moves the cursor token by token, and then perhaps back to where it just was. -/
lemma steps_turn (h : r.turn = .ok r') :
    Relation.ReflTransGen Source.Step r.lexer.source r'.lexer.source := by
  obtain ⟨k, hnext, hsteps⟩ := r.lexer.steps_nextMaterial
  unfold turn at h
  split at h
  · cases h
    exact .refl
  · rw [hnext] at h
    dsimp only at h
    split_ifs at h
    · obtain ⟨found, -, h⟩ := exists_of_bind_eq_ok h
      obtain ⟨m, -, h⟩ := exists_of_bind_eq_ok h
      cases h
      exact hsteps.tail .token
    · rcases source_of_take h with hsource | hsource
      · rw [hsource]
        exact hsteps.tail .token
      · rw [hsource]
        exact hsteps

/-- **All turns** do. -/
lemma steps_turns {s : Source} {list : ListKind} {n : ℕ} (h : after s list n = .ok r) :
    Relation.ReflTransGen Source.Step s r.lexer.source := by
  induction n generalizing r with
  | zero =>
    obtain ⟨m, -, h⟩ := exists_of_bind_eq_ok h
    cases h
    exact .refl
  | succ n ih =>
    obtain ⟨r₀, hbefore, h⟩ := exists_of_bind_eq_ok h
    exact (ih hbefore).trans (steps_turn h)

end Reader

namespace Source

lemma keepsPairs {s : Source} (h : ¬ SplitsPair s.text s.location) : s.KeepsPairs where
  moves c hsteps := (steps_keep hsteps h).2
  tokens n k := by
    obtain ⟨htext, hkeeps⟩ := steps_keep ((Lexer.ofSource s).steps_after n) h
    change _ = s.text at htext
    rw [← htext]
    exact not_splitsPair_locationAfter (by rw [htext]; exact hkeeps) k
  turns list n r hr := (steps_keep (Reader.steps_turns hr) h).2

/-! ### Newlines do not matter -/

lemma inStep_unifyNewlines (text : List Char) :
    (⟨text, 0⟩ : Source).InStep (newlinePlace text) ⟨unifyNewlines text, 0⟩ where
  rest := by
    change chars (decode (unifyNewlines text)) = chars (decode text)
    rw [decode_unifyNewlines, chars, chars, List.map_map]
    rfl
  place k := by
    change 0 + width ((decode (unifyNewlines text)).take k) =
      newlinePlace text (0 + width ((decode text).take k))
    rw [Nat.zero_add, Nat.zero_add, newlinePlace_width]

/-- **Newlines of any kind read alike**: with line feeds for all of them, a text has the same
tokens, errors, tree and problems at corresponding places. The cursor does not stop inside a pair,
from wherever else it starts. -/
theorem newline_kind_immaterial {text : List Char} {s : Source} (h : ofChars text = .ok s) :
    ∃ s', ofChars (unifyNewlines text) = .ok s' ∧ s.ReadsAlike (newlinePlace text) s' ∧
      ∀ p r, s.seek p = .ok r → ¬ SplitsPair text p → r.KeepsPairs := by
  obtain ⟨rfl, hascii⟩ := ofChars_eq_ok_iff.mp h
  refine ⟨⟨unifyNewlines text, 0⟩, ?_, ?_, ?_⟩
  · refine ofChars_eq_ok_iff.mpr ⟨rfl, fun c hc => ?_⟩
    rcases mem_unifyNewlines hc with rfl | hc
    · decide
    · exact hascii c hc
  · exact (inStep_unifyNewlines text).readsAlike (Nat.zero_le _) (Nat.zero_le _)
  · intro p r hr hp
    unfold seek at hr
    split_ifs at hr
    cases hr
    exact keepsPairs hp

/-- A pair, a form feed and, in a string without an end, a carriage return. -/
theorem newline_kind_immaterial_pair :
    ∃ s', ofChars ['a', '\n', '\n', '\x7b', '"', '\n'] = .ok s' ∧
      (⟨['a', '\r', '\n', '\x0c', '\x7b', '"', '\r'], 0⟩ : Source).ReadsAlike
        (newlinePlace ['a', '\r', '\n', '\x0c', '\x7b', '"', '\r']) s' ∧
      ∀ p r, (⟨['a', '\r', '\n', '\x0c', '\x7b', '"', '\r'], 0⟩ : Source).seek p = .ok r →
        ¬ SplitsPair ['a', '\r', '\n', '\x0c', '\x7b', '"', '\r'] p → r.KeepsPairs :=
  newline_kind_immaterial (rfl : ofChars ['a', '\r', '\n', '\x0c', '\x7b', '"', '\r'] = .ok _)

end Source

end Stylesheet
