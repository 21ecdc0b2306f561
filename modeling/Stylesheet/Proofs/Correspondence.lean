import Stylesheet.Proofs.Cutting

/-!
Texts that read alike. Two sources are in step if they read the same code points and stand at
corresponding places, now and after any number of code points. Nothing else of a text is looked at:
so they have the same tokens, values, errors, trees and problems, at corresponding places. The text
from a place on is in step with the same text on its own, wherever that place is.
-/

namespace Stylesheet

open Stylesheet.Text

/-- Stretches go with both of their ends. -/
def Motion.elastic (σ : ℕ → ℕ) : Motion :=
  ⟨σ, fun r => ⟨σ r.start, σ r.stop - σ r.start⟩, fun _ => rfl⟩

/-! ### The same reading at other places -/

section

variable (σ : ℕ → ℕ)

/-- The same kind of token, where both ends are at the places that `σ` gives. -/
structure Token.Alike (t u : Token) : Prop where
  kind : u.kind = t.kind
  start : u.start = σ t.start
  stop : u.stop = σ t.stop

structure Diagnostic.Alike (d e : Diagnostic) : Prop where
  message : e.message = d.message
  start : e.span.start = σ d.span.start
  stop : e.span.stop = σ d.span.stop

/-- The same tree and the same problems, where the places are those that `σ` gives. -/
structure Parse.Alike (old new : Parse) : Prop where
  skips : new.tree.skips = old.tree.skips
  /-- Kinds and extras stay. -/
  components : new.tree.components = old.tree.components.map (Component.relocate σ)
  diagnostics : List.Forall₂ (Diagnostic.Alike σ) old.diagnostics new.diagnostics

/-- Reading `new` comes to the same as reading `old`, where the places are those that `σ` gives. -/
structure Source.ReadsAlike (old new : Source) : Prop where
  /-- The tokens in turn, and then the end token for ever. -/
  tokens : ∀ n, ((Lexer.ofSource old).nth n).Alike σ ((Lexer.ofSource new).nth n)
  values : ∀ n, ∃ value,
    old.valueAt ((Lexer.ofSource old).nth n).kind ((Lexer.ofSource old).nth n).start = .ok value ∧
    new.valueAt ((Lexer.ofSource new).nth n).kind ((Lexer.ofSource new).nth n).start = .ok value
  errors : ∀ n, ((Lexer.ofSource new).after n).errors =
    ((Lexer.ofSource old).after n).errors.map (LexError.relocate σ)
  /-- Also inside of tokens the two stand at corresponding places. -/
  places : ∀ n k, ((Lexer.ofSource new).after n).source.locationAfter k =
    σ (((Lexer.ofSource old).after n).source.locationAfter k)
  parses : ∀ list, match old.parse list, new.parse list with
    | .ok p, .ok q => p.Alike σ q
    | .error e, .error e' => e' = e
    | _, _ => False

/-- The two read the same and stay at corresponding places while they do. -/
structure Source.InStep (old new : Source) : Prop where
  rest : new.rest = old.rest
  place : ∀ k, new.locationAfter k = σ (old.locationAfter k)

end

/-! ### Places among the code points -/

namespace Source

variable (s : Source)

@[simp] lemma locationAfter_zero : s.locationAfter 0 = s.location := by simp [locationAfter]

lemma skip_locationAfter (n k : ℕ) : (s.skip n).locationAfter k = s.locationAfter (n + k) := by
  have hahead := s.skip_ahead n
  rw [locationAfter, hahead, locationAfter, List.take_add, width_append, ← Nat.add_assoc]
  rfl

lemma next_eq_skip : s.next = s.skip (lex s.rest).size := rfl

variable {s}

lemma locationAfter_lt_succ {k : ℕ} (h : k < s.rest.length) :
    s.locationAfter k < s.locationAfter (k + 1) := by
  have hrest : (s.skip k).rest ≠ [] := by
    rw [skip_rest, Ne, List.drop_eq_nil_iff]
    omega
  rw [Ne, rest_eq_nil_iff] at hrest
  have hpos := width_take_pos (t := (s.skip k).text.drop (s.skip k).location) (k := 1)
    (by rwa [Ne, List.drop_eq_nil_iff]) Nat.one_pos
  rw [← skip_locationAfter, locationAfter, ahead]
  exact Nat.lt_add_of_pos_right hpos

lemma lt_of_locationAfter_lt {a b : ℕ} (h : s.locationAfter a < s.locationAfter b) :
    a < b ∧ a < s.rest.length := by
  refine ⟨?_, ?_⟩
  · by_contra hle
    have := locationAfter_mono s (Nat.le_of_not_lt hle)
    omega
  · by_contra hle
    have hall : s.ahead.take a = s.ahead :=
      List.take_of_length_le (by rw [← length_rest]; exact Nat.le_of_not_lt hle)
    have hsplit := width_append (s.ahead.take b) (s.ahead.drop b)
    rw [List.take_append_drop] at hsplit
    rw [locationAfter, hall, locationAfter] at h
    omega

lemma exists_ends {t : Token} (h : s.location ≤ s.text.length) (ht : t ∈ s.tokens) :
    t.start ∈ Set.range s.locationAfter ∧ t.stop ∈ Set.range s.locationAfter := by
  obtain ⟨k, hk⟩ := exists_locationAfter h (start_mem_starts ht)
  have hstop := congrArg Token.stop (standsIn_of_mem_tokens ht).2
  have hthere : (⟨s.text, t.start⟩ : Source) = s.skip k := by
    rw [hk]
    rfl
  rw [hthere, token_stop, skip_locationAfter] at hstop
  exact ⟨⟨k, hk.symm⟩, ⟨_, hstop⟩⟩

end Source

/-! ### Sources in step -/

namespace Source.InStep

variable {σ : ℕ → ℕ} {old new : Source}

lemma location (h : old.InStep σ new) : new.location = σ old.location := by
  have hplace := h.place 0
  rwa [locationAfter_zero, locationAfter_zero] at hplace

lemma skip (h : old.InStep σ new) (n : ℕ) : (old.skip n).InStep σ (new.skip n) where
  rest := by rw [skip_rest, skip_rest, h.rest]
  place k := by rw [skip_locationAfter, skip_locationAfter, h.place]

lemma next (h : old.InStep σ new) : old.next.InStep σ new.next := by
  rw [next_eq_skip, next_eq_skip, h.rest]
  exact h.skip _

lemma token_stop (h : old.InStep σ new) : new.token.stop = σ old.token.stop := by
  rw [Source.token_stop, Source.token_stop, h.rest, h.place]

lemma end_iff (h : old.InStep σ new) :
    new.text.length ≤ new.location ↔ old.text.length ≤ old.location := by
  rw [← rest_eq_nil_iff, h.rest, rest_eq_nil_iff]

/-- **One token** goes with both of its ends. -/
lemma token (h : old.InStep σ new) : new.token = old.token.move (.elastic σ) := by
  have hstop := h.token_stop
  have hlength : new.token.span.length = σ old.token.stop - σ old.location := by
    rw [← hstop, ← h.location]
    exact (Nat.add_sub_cancel_left _ _).symm
  have hspan : new.token.span = ⟨σ old.location, σ old.token.stop - σ old.location⟩ := by
    rw [← hlength, ← h.location]
    rfl
  have hkind : new.token.kind = old.token.kind := by rw [token_kind, token_kind, h.rest]
  have herror : new.token.error = old.token.error := by
    change (lex new.rest).error = (lex old.rest).error
    rw [h.rest]
  calc new.token = ⟨new.token.kind, new.token.span, new.token.error⟩ := rfl
    _ = ⟨old.token.kind, ⟨σ old.location, σ old.token.stop - σ old.location⟩, old.token.error⟩ := by
      rw [hkind, hspan, herror]
    _ = old.token.move (.elastic σ) := rfl

/-- **All tokens** do. -/
lemma tokens (h : old.InStep σ new) :
    new.tokens = old.tokens.map (Token.move (.elastic σ)) := by
  induction old using next_induction generalizing new with
  | atEnd old hend => rw [tokens_of_end hend, tokens_of_end (h.end_iff.mpr hend), List.map_nil]
  | step old hlt ih =>
    have hlt' : new.location < new.text.length := Nat.lt_of_not_le (mt h.end_iff.mp (by omega))
    rw [tokens_cons hlt, tokens_cons hlt', List.map_cons, h.token, ih h.next]

lemma strictMonoOn (h : old.InStep σ new) : StrictMonoOn σ (Set.range old.locationAfter) := by
  rintro _ ⟨a, rfl⟩ _ ⟨b, rfl⟩ hlt
  obtain ⟨hab, ha⟩ := lt_of_locationAfter_lt hlt
  rw [← h.place, ← h.place]
  rw [← h.rest] at ha
  exact Nat.lt_of_lt_of_le (locationAfter_lt_succ ha) (locationAfter_mono new hab)

lemma after (h : old.InStep σ new) (n : ℕ) :
    ((Lexer.ofSource old).after n).source.InStep σ ((Lexer.ofSource new).after n).source := by
  induction n with
  | zero => exact h
  | succ n ih => exact ih.next

lemma errors (h : old.InStep σ new) (n : ℕ) : ((Lexer.ofSource new).after n).errors =
    ((Lexer.ofSource old).after n).errors.map (LexError.relocate σ) := by
  induction n with
  | zero => rfl
  | succ n ih =>
    have hstep (s : Source) : ((Lexer.ofSource s).after (n + 1)).errors =
        ((Lexer.ofSource s).after n).errors ++
          ((Lexer.ofSource s).after n).source.token.lexError?.toList := rfl
    rw [hstep, hstep, ih, (h.after n).token, Token.lexError?_move, List.map_append,
      Option.toList_map]
    rfl

lemma value (h : old.InStep σ new) (hold : old.location ≤ old.text.length)
    (hnew : new.location ≤ new.text.length) : ∃ value,
    old.valueAt old.token.kind old.token.start = .ok value ∧
      new.valueAt new.token.kind new.token.start = .ok value := by
  have hkind : new.token.kind = old.token.kind := by rw [h.token]; rfl
  rw [hkind, token_start, token_start]
  rcases hread : old.token.kind.reader? with _ | read
  · exact ⟨none, by rw [valueAt, hread], by rw [valueAt, hread]⟩
  · exact ⟨_, valueAt_location hold hread, by rw [valueAt_location hnew hread, h.rest]⟩

lemma sheet (h : old.InStep σ new) (list : ListKind) :
    new.sheet list = (old.sheet list).move (.elastic σ) := by
  have hmaterial : new.material = old.material.map (Token.move (.elastic σ)) := by
    rw [material, h.tokens, List.filter_map]
    rfl
  rw [Source.sheet, hmaterial, consumeRules_move]
  rfl

variable {list : ListKind} {p : Parse}

lemma ends_of_finding (hold : old.location ≤ old.text.length) (hp : old.parse list = .ok p)
    {found : Finding} (hfound : found ∈ p.findings) :
    found.span.start ∈ Set.range old.locationAfter ∧
      found.span.stop ∈ Set.range old.locationAfter := by
  obtain ⟨t, ht, hspan⟩ := exists_token_of_mem_findings hp hfound
  rw [hspan]
  exact exists_ends hold ht

lemma problems (h : old.InStep σ new) (hold : old.location ≤ old.text.length)
    (hp : old.parse list = .ok p) :
    new.problems list = p.findings.map (Finding.move (.elastic σ)) := by
  have hfindings : p.findings = old.problems list := by rw [(parse_eq_ok_iff.mp hp).2]
  have hplaces : ∀ f ∈ (old.sheet list).findings ++ old.tokens.filterMap Token.finding?,
      f.span.start ∈ Set.range old.locationAfter := by
    intro f hf
    refine (ends_of_finding hold hp ?_).1
    rw [hfindings, Source.problems, (sortFindings_perm _).mem_iff]
    exact hf
  have hmoved : (new.sheet list).findings ++ new.tokens.filterMap Token.finding? =
      ((old.sheet list).findings ++ old.tokens.filterMap Token.finding?).map
        (Finding.move (.elastic σ)) := by
    rw [h.sheet, h.tokens, filterMap_finding?_move, List.map_append]
    rfl
  rw [hfindings, Source.problems, Source.problems, hmoved,
    sortFindings_move (μ := .elastic σ) h.strictMonoOn hplaces]

lemma diagnostic_alike (h : old.InStep σ new) {found : Finding}
    (hstart : found.span.start ∈ Set.range old.locationAfter)
    (hstop : found.span.stop ∈ Set.range old.locationAfter) :
    found.diagnostic.Alike σ (found.move (.elastic σ)).diagnostic where
  message := rfl
  start := rfl
  stop := by
    have hle : σ found.span.start ≤ σ found.span.stop :=
      h.strictMonoOn.monotoneOn hstart hstop (Nat.le_add_right _ _)
    exact Nat.add_sub_cancel' hle

/-- **The parses** are the same at corresponding places. -/
lemma parses (h : old.InStep σ new) (hold : old.location ≤ old.text.length) (list : ListKind) :
    match old.parse list, new.parse list with
    | .ok p, .ok q => p.Alike σ q
    | .error e, .error e' => e' = e
    | _, _ => False := by
  have hwritten : (new.sheet list).written = (old.sheet list).written := by
    rw [h.sheet, Sheet.written_move]
  rcases hp : old.parse list with e | p
  · rw [parse_eq_reserve, reserve] at hp ⊢
    rw [hwritten]
    split_ifs at hp ⊢
    exact Except.error.inj hp
  · obtain ⟨hroom, rfl⟩ := parse_eq_ok_iff.mp hp
    have hq : new.parse list =
        .ok ⟨(new.sheet list).componentTree new.location, new.problems list⟩ :=
      parse_eq_ok_iff.mpr ⟨by rwa [hwritten], rfl⟩
    rw [hq, h.sheet, h.location]
    refine ⟨?_, ?_, ?_⟩
    · simp [ComponentTree.skips, SkipTree.skips, Sheet.componentTree, Sheet.tree, Sheet.move,
        Rose.sizes_maps, Rose.layouts_maps]
    · simp [ComponentTree.components, SkipTree.values, Sheet.componentTree, Sheet.tree, Sheet.move,
        Rose.layouts_maps, Motion.elastic, Component.relocate]
    · rw [Parse.diagnostics, Parse.diagnostics, h.problems hold hp, List.map_map,
        List.forall₂_map_left_iff, List.forall₂_map_right_iff, List.forall₂_same]
      intro found hfound
      obtain ⟨hstart, hstop⟩ := ends_of_finding hold hp hfound
      exact h.diagnostic_alike hstart hstop

/-- **Sources in step read alike.** -/
theorem readsAlike (h : old.InStep σ new) (hold : old.location ≤ old.text.length)
    (hnew : new.location ≤ new.text.length) : old.ReadsAlike σ new where
  tokens n := by
    have hn := h.after n
    refine ⟨?_, hn.location, hn.token_stop⟩
    rw [Lexer.nth_eq_token, Lexer.nth_eq_token, hn.token]
    rfl
  values n := by
    have hold' := Lexer.after_location_le (l := .ofSource old) hold n
    have hnew' := Lexer.after_location_le (l := .ofSource new) hnew n
    have hvalue := (h.after n).value (by rwa [Lexer.after_text]) (by rwa [Lexer.after_text])
    simp only [valueAt, seek, Lexer.after_text] at hvalue
    exact hvalue
  errors := h.errors
  places n := (h.after n).place
  parses := h.parses hold

end Source.InStep

/-! ### A text from a place on -/

namespace Source

lemma inStep_drop (text : List Char) (p : ℕ) :
    (⟨text.drop p, 0⟩ : Source).InStep (· + p) ⟨text, p⟩ where
  rest := rfl
  place k := by
    change p + _ = 0 + _ + p
    rw [Nat.zero_add, Nat.add_comm]
    rfl

/-- **Reading does not look back**: from any place of a text, also one inside a token or a line
ending, it reads as the text from there on does by itself, with every place that much further. -/
theorem reading_translates {text : List Char} {s : Source} (h : ofChars text = .ok s) {p : ℕ}
    (hp : p ≤ text.length) :
    ∃ old new, ofChars (text.drop p) = .ok old ∧ s.seek p = .ok new ∧
      old.ReadsAlike (· + p) new := by
  obtain ⟨rfl, hascii⟩ := ofChars_eq_ok_iff.mp h
  refine ⟨⟨text.drop p, 0⟩, ⟨text, p⟩, ?_, if_pos hp, ?_⟩
  · exact ofChars_eq_ok_iff.mpr ⟨rfl, fun c hc => hascii c (List.mem_of_mem_drop hc)⟩
  · exact (inStep_drop text p).readsAlike (Nat.zero_le _) hp

/-- From the line feed of a line ending on, with a block and a string that have no end. -/
theorem reading_translates_line_feed :
    ∃ old new, ofChars ['\n', 'a', '\x7b', '"'] = .ok old ∧
      (⟨['\r', '\n', 'a', '\x7b', '"'], 0⟩ : Source).seek 1 = .ok new ∧
      old.ReadsAlike (· + 1) new :=
  reading_translates (p := 1) (rfl : ofChars ['\r', '\n', 'a', '\x7b', '"'] = .ok _) (by decide)

end Source

end Stylesheet
