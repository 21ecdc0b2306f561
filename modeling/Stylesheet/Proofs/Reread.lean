import Stylesheet.Proofs.Descent
import Stylesheet.Proofs.Draft
import Stylesheet.Proofs.Reader

/-!
Reading a token more than once. Lexing depends on nothing but the place, so a token read anew is
the same token: the stretch that is read for a finding is that of the token, and a token that is
handed back is read again with the same error. Of errors that are put in order and counted once,
those of one straight pass over the text remain.
-/

namespace Stylesheet

/-- A token of the text: it starts inside the text and is what is read there. -/
def Token.StandsIn (text : List Char) (t : Token) : Prop :=
  t.start < text.length ∧ (Source.mk text t.start).token = t

namespace Source

variable {s : Source}

lemma token_standsIn (h : s.location < s.text.length) : s.token.StandsIn s.text := ⟨h, rfl⟩

lemma standsIn_of_mem_tokens {t : Token} (h : t ∈ s.tokens) : t.StandsIn s.text := by
  induction s using next_induction with
  | atEnd s hend => simp [tokens_of_end hend] at h
  | step s hlt ih =>
    rw [tokens_cons hlt] at h
    rcases List.mem_cons.mp h with rfl | h
    · exact token_standsIn hlt
    · exact ih h

lemma tokenAt_of_standsIn {t : Token} (h : t.StandsIn s.text) : s.tokenAt t.start = .ok t := by
  obtain ⟨hlt, htoken⟩ := h
  rw [tokenAt, seek, if_pos (by omega)]
  exact congrArg Except.ok htoken

lemma tokenSpan_of_standsIn {t : Token} (h : t.StandsIn s.text) :
    s.tokenSpan t.start = .ok t.span := by
  have hbetween : Span.between? t.start t.stop = some t.span := by
    have hlength : t.stop - t.start = t.span.length := Nat.add_sub_cancel_left _ _
    rw [Span.between?, if_pos (show t.start ≤ t.stop from Nat.le_add_right _ _), hlength]
    rfl
  rw [tokenSpan, tokenAt_of_standsIn h, ok_bind, hbetween]
  rfl

lemma material_of_end (h : s.text.length ≤ s.location) : s.material = [] := by
  rw [material, tokens_of_end h]; rfl

lemma material_of_comments (h : s.token.kind = .comments) : s.material = s.next.material := by
  have hlt : s.location < s.text.length := kind_ne_eof_iff.mp (by simp [h])
  rw [material, tokens_cons hlt, List.filter_cons_of_neg (by simp [h])]
  rfl

lemma material_cons (hlt : s.location < s.text.length) (h : s.token.kind ≠ .comments) :
    s.material = s.token :: s.next.material := by
  rw [material, tokens_cons hlt, List.filter_cons_of_pos (by simp [h])]
  rfl

lemma lexErrors_of_end (h : s.text.length ≤ s.location) : s.lexErrors = [] := by
  rw [lexErrors, tokens_of_end h]; rfl

lemma lexErrors_cons (h : s.location < s.text.length) :
    s.lexErrors = s.token.lexError?.toList ++ s.next.lexErrors := by
  rw [lexErrors, tokens_cons h, List.filterMap_cons]
  rcases s.token.lexError? <;> rfl

lemma lexError_of_end (h : s.text.length ≤ s.location) : s.token.lexError? = none := by
  rw [token, rest_eq_nil_iff.mpr h]
  rfl

lemma le_location_of_mem_lexErrors {e : LexError} (h : e ∈ s.lexErrors) :
    s.location ≤ e.location := by
  induction s using next_induction with
  | atEnd s hend => simp [lexErrors_of_end hend] at h
  | step s hlt ih =>
    have hstop := lt_token_stop hlt
    rw [lexErrors_cons hlt] at h
    rcases List.mem_append.mp h with h | h
    · obtain ⟨k, -, rfl⟩ := Option.map_eq_some_iff.mp (Option.mem_toList.mp h)
      exact Nat.le_refl _
    · have := ih h
      rw [next_location] at this
      omega

lemma pairwise_lexErrors (s : Source) :
    s.lexErrors.Pairwise fun e f => e.location < f.location := by
  induction s using next_induction with
  | atEnd s hend => simp [lexErrors_of_end hend]
  | step s hlt ih =>
    have hstop := lt_token_stop hlt
    rw [lexErrors_cons hlt]
    refine List.pairwise_append.mpr ⟨?_, ih, fun e he f hf => ?_⟩
    · rcases s.token.lexError? <;> simp
    · obtain ⟨k, -, rfl⟩ := Option.map_eq_some_iff.mp (Option.mem_toList.mp he)
      have hle := le_location_of_mem_lexErrors hf
      rw [next_location] at hle
      exact Nat.lt_of_lt_of_le hstop hle

lemma mapM_lexicalFinding {ts : List Token} (h : ∀ t ∈ ts, t.StandsIn s.text) :
    (ts.filterMap Token.lexError?).mapM s.lexicalFinding = .ok (ts.filterMap Token.finding?) := by
  induction ts with
  | nil => rfl
  | cons t ts ih =>
    have htail := ih fun u hu => h u (by simp [hu])
    rcases he : t.error with _ | k
    · rw [List.filterMap_cons_none (by simp [Token.lexError?, he]),
        List.filterMap_cons_none (by simp [Token.finding?, he])]
      exact htail
    · have hfinding : s.lexicalFinding ⟨k, t.start⟩ = .ok ⟨.lexical k, t.span⟩ := by
        rw [lexicalFinding, tokenSpan_of_standsIn (h t (by simp)), ok_bind]
        rfl
      have herror : t.lexError? = some ⟨k, t.start⟩ := by rw [Token.lexError?, he]; rfl
      have hfound : t.finding? = some ⟨.lexical k, t.span⟩ := by rw [Token.finding?, he]; rfl
      rw [List.filterMap_cons_some herror, List.filterMap_cons_some hfound, List.mapM_cons,
        hfinding, ok_bind, htail]
      rfl

end Source

/-! ### Errors that are met twice -/

lemma destutter'_repeat {α : Type} [DecidableEq α] (b : α) (xs : List α) (a : α) (ys : List α) :
    (xs ++ a :: a :: ys).destutter' (· ≠ ·) b = (xs ++ a :: ys).destutter' (· ≠ ·) b := by
  induction xs generalizing b with
  | nil =>
    by_cases hb : b = a
    · simp [hb]
    · simp [hb]
  | cons x xs ih => simp only [List.cons_append, List.destutter'_cons, ih]

lemma destutter_repeat {α : Type} [DecidableEq α] (xs : List α) (a : α) (ys : List α) :
    (xs ++ a :: a :: ys).destutter (· ≠ ·) = (xs ++ a :: ys).destutter (· ≠ ·) := by
  cases xs with
  | nil => simp [List.destutter_cons']
  | cons x xs =>
    rw [List.cons_append, List.cons_append, List.destutter_cons', List.destutter_cons']
    exact destutter'_repeat x xs a ys

namespace Lexer

/-- The errors met so far and those that are met if reading goes straight on. -/
def errorsToEnd (l : Lexer) : List LexError := l.errors ++ l.source.lexErrors

/-- Reading meets the errors `es`, in their order, though some of them perhaps twice. -/
structure Meets (l : Lexer) (es : List LexError) : Prop where
  once : l.errorsToEnd.destutter (· ≠ ·) = es
  ordered : l.errorsToEnd.Pairwise (Reader.inOrder · ·)

lemma meets_ofSource (s : Source) : (ofSource s).Meets s.lexErrors where
  once := by
    refine List.destutter_of_isChain _ _ ((s.pairwise_lexErrors.imp fun hlt heq => ?_).isChain)
    rw [heq] at hlt
    exact Nat.lt_irrefl _ hlt
  ordered := s.pairwise_lexErrors.imp fun hlt => by simp [Reader.inOrder, hlt]

lemma next_of_end {l : Lexer} (h : l.source.text.length ≤ l.source.location) : l.next.2 = l := by
  change Lexer.mk l.source.next (l.errors ++ l.source.token.lexError?.toList) = l
  rw [Source.next_of_end h, Source.lexError_of_end h, Option.toList_none, List.append_nil]

lemma errorsToEnd_next (l : Lexer) : l.next.2.errorsToEnd = l.errorsToEnd := by
  rcases Nat.lt_or_ge l.source.location l.source.text.length with hlt | hend
  · rw [errorsToEnd, errorsToEnd, Source.lexErrors_cons hlt, ← List.append_assoc]
    rfl
  · rw [next_of_end hend]

lemma meets_next {l : Lexer} {es : List LexError} (h : l.Meets es) : l.next.2.Meets es :=
  ⟨by rw [errorsToEnd_next]; exact h.once, by rw [errorsToEnd_next]; exact h.ordered⟩

/-- A token that is handed back brings its error once more. -/
lemma meets_back {l : Lexer} {es : List LexError} (h : l.Meets es)
    (hlt : l.source.location < l.source.text.length) :
    (Lexer.mk l.source l.next.2.errors).Meets es := by
  obtain ⟨honce, hordered⟩ := h
  have hall : l.errorsToEnd =
      l.errors ++ (l.source.token.lexError?.toList ++ l.source.next.lexErrors) := by
    rw [errorsToEnd, Source.lexErrors_cons hlt]
  have hback : (Lexer.mk l.source l.next.2.errors).errorsToEnd =
      l.errors ++ l.source.token.lexError?.toList ++
        (l.source.token.lexError?.toList ++ l.source.next.lexErrors) := by
    rw [errorsToEnd, ← Source.lexErrors_cons hlt]
    rfl
  rcases he : l.source.token.lexError? with _ | e
  · -- nothing was met, so nothing is met again
    have hsame : (Lexer.mk l.source l.next.2.errors).errorsToEnd = l.errorsToEnd := by
      rw [hall, hback, he]; simp
    exact ⟨by rw [hsame]; exact honce, by rw [hsame]; exact hordered⟩
  · simp only [he, Option.toList_some, List.singleton_append, List.append_assoc] at hall hback
    rw [hall] at honce hordered
    refine ⟨?_, ?_⟩
    · rw [hback, destutter_repeat]
      exact honce
    · rw [hback]
      simp only [List.pairwise_append, List.pairwise_cons, List.mem_cons] at hordered ⊢
      obtain ⟨hfront, ⟨hfirst, hrest⟩, hacross⟩ := hordered
      have hself : Reader.inOrder e e := by simp [Reader.inOrder]
      refine ⟨hfront, ⟨?_, hfirst, hrest⟩, ?_⟩
      · rintro f (rfl | hf)
        · exact hself
        · exact hfirst f hf
      · rintro d hd f (rfl | hf)
        · exact hacross d hd _ (.inl rfl)
        · exact hacross d hd f hf

/-- The errors of a lexer at the end, put in order and counted once. -/
lemma errors_at_end {l : Lexer} {es : List LexError} (h : l.Meets es)
    (hend : l.source.text.length ≤ l.source.location) :
    (l.errors.mergeSort Reader.inOrder).destutter (· ≠ ·) = es := by
  obtain ⟨honce, hordered⟩ := h
  rw [errorsToEnd, Source.lexErrors_of_end hend, List.append_nil] at honce hordered
  rw [List.mergeSort_of_pairwise hordered]
  exact honce

lemma exists_nextMaterial (l : Lexer) :
    ∃ k : Lexer, l.nextMaterial = k.next ∧ k.source.token.kind ≠ .comments ∧
      k.source.text = l.source.text ∧ l.source.location ≤ k.source.location ∧
      k.source.material = l.source.material ∧ k.errorsToEnd = l.errorsToEnd := by
  fun_induction nextMaterial l with
  | case1 l h ih =>
    obtain ⟨k, hnext, hkind, htext, hlocation, hmaterial, herrors⟩ := ih
    have hstep : l.source.location ≤ l.next.2.source.location := Nat.le_add_right _ _
    refine ⟨k, hnext, hkind, htext, Nat.le_trans hstep hlocation, ?_, ?_⟩
    · rw [hmaterial, Source.material_of_comments (s := l.source) h]
      rfl
    · rw [herrors, errorsToEnd_next]
  | case2 l h => exact ⟨l, rfl, h, rfl, Nat.le_refl _, rfl, rfl⟩

end Lexer

end Stylesheet
