import Stylesheet.Proofs.Comments

/-!
How comments are cut. A comment goes on to the first terminator behind its opening, or to the end
of the text where there is none, and the comments that touch make one token. So the text says by
itself which parts of it are comments, and two tokens of comments never touch.
-/

namespace Stylesheet.Text

/-! ### Comments in a text -/

/-- A text that ends in a terminator, and nothing shorter at its front does. -/
structure EndsFirst (c : List Char) : Prop where
  ends : ['*', '/'] <:+ c
  shortest : ∀ d, d <+: c → ['*', '/'] <:+ d → d = c

/-- The comments `run` that a text starts with, as they are written, and the `tail` behind them,
which opens no other. Behind its opening a comment goes on to the first terminator, and only where
there is none to the end of the text. -/
inductive Comments : (text : List Char) → (run : List (List Char)) → (tail : List Char) → Prop
  | stop {t : List Char} (h : ¬ ['/', '*'] <+: t) : Comments t [] t
  | unclosed {c : List Char} (h : ¬ ['*', '/'] <:+: c) :
    Comments ('/' :: '*' :: c) ['/' :: '*' :: c] []
  | closed {c t tail : List Char} {run : List (List Char)} (h : EndsFirst c)
    (rest : Comments t run tail) : Comments ('/' :: '*' :: c ++ t) (('/' :: '*' :: c) :: run) tail

variable {c t tail : List Char} {run : List (List Char)}

/-- **The first terminator** has none in front of it. -/
lemma endsFirst_iff : EndsFirst c ↔ ∃ body, ¬ ['*', '/'] <:+: body ∧ c = body ++ ['*', '/'] := by
  constructor
  · rintro ⟨⟨body, rfl⟩, hshortest⟩
    refine ⟨body, ?_, rfl⟩
    rintro ⟨u, v, rfl⟩
    have hearly : u ++ ['*', '/'] <+: u ++ ['*', '/'] ++ v ++ ['*', '/'] := by simp
    have hlength := congrArg List.length (hshortest _ hearly (List.suffix_append _ _))
    simp only [List.length_append, List.length_cons] at hlength
    omega
  · rintro ⟨body, hbody, rfl⟩
    refine ⟨List.suffix_append _ _, ?_⟩
    rintro d hfront ⟨u, rfl⟩
    -- what is shorter ends in a star, or has its terminator in `body`
    have hsplit : body ++ ['*', '/'] = body ++ ['*'] ++ ['/'] := by simp
    rw [hsplit, List.prefix_concat_iff, List.prefix_concat_iff] at hfront
    rcases hfront with hwhole | hstar | hfront
    · rw [hwhole, hsplit]
    · have hlast := congrArg List.getLast? hstar
      simp at hlast
    · exact absurd ((List.suffix_append u _).isInfix.trans hfront.isInfix) hbody

lemma Comments.text_eq (h : Comments t run tail) : t = run.flatten ++ tail := by
  induction h with
  | stop _ => rfl
  | unclosed _ => simp
  | closed _ _ ih => rw [ih, List.flatten_cons, List.append_assoc]

lemma Comments.not_opening (h : Comments t run tail) : ¬ ['/', '*'] <+: tail := by
  induction h with
  | stop h => exact h
  | unclosed _ => simp
  | closed _ _ ih => exact ih

lemma Comments.ne_nil_iff (h : Comments t run tail) : run ≠ [] ↔ ['/', '*'] <+: t := by
  cases h with
  | stop h => exact iff_of_false (not_not.mpr rfl) h
  | unclosed _ => exact iff_of_true (List.cons_ne_nil _ _) ⟨_, rfl⟩
  | closed _ _ => exact iff_of_true (List.cons_ne_nil _ _) ⟨_, rfl⟩

lemma exists_comments (t : List Char) : ∃ run tail, Comments t run tail := by
  induction t using units_induction comment?_advances with
  | stop t hnone _ =>
    refine ⟨[], t, .stop ?_⟩
    rintro ⟨r, rfl⟩
    obtain ⟨a, ha⟩ := exists_comment r
    exact absurd (hnone.symm.trans ha) (by simp)
  | unit t a ha _ ih =>
    rcases comment?_cases ha with ⟨body, r, hbody, rfl, rfl⟩ | ⟨body, hbody, rfl, -⟩
    · rw [List.drop_left] at ih
      obtain ⟨run, tail, hrest⟩ := ih
      exact ⟨_, tail, .closed (endsFirst_iff.mpr ⟨body, hbody, rfl⟩) hrest⟩
    · exact ⟨_, [], .unclosed hbody⟩

/-! ### Comments as they are read -/

/-- A closed comment is read by itself, and what is behind it as it is alone. -/
lemma EndsFirst.reads (h : EndsFirst c) (t : List Char) :
    decode ('/' :: '*' :: c ++ t) = decode ('/' :: '*' :: c) ++ decode t ∧
      commentRun (chars (decode ('/' :: '*' :: c ++ t))) =
        ⟨(decode ('/' :: '*' :: c)).length, true⟩ :: commentRun (chars (decode t)) := by
  obtain ⟨body, hbody, rfl⟩ := endsFirst_iff.mp h
  have hdecode := decode_comment_append body t
  have hcomment := comment?_comment hbody (chars (decode t))
  have hbehind : (chars (decode (comment body)) ++ chars (decode t)).drop
      (decode (comment body)).length = chars (decode t) := List.drop_left' (List.length_map _)
  refine ⟨hdecode, ?_⟩
  change commentRun (chars (decode (comment body ++ t))) = _
  rw [hdecode, chars_append, commentRun_of_some hcomment, hbehind]
  rfl

lemma runSize_unclosed (h : ¬ ['*', '/'] <:+: c) :
    runSize (commentRun (chars (decode ('/' :: '*' :: c)))) =
      (decode ('/' :: '*' :: c)).length := by
  have hread : chars (decode ('/' :: '*' :: c)) = '/' :: '*' :: chars (decode c) := by
    rw [decode_cons (by simp), decode_cons (by simp)]
    rfl
  have hopen : ¬ (commentRun (chars (decode ('/' :: '*' :: c)))).all Comment.closed := by
    rw [hread, commentRun_of_some (comment?_unclosed (terminator_infix_iff.not.mpr h)),
      List.all_cons]
    exact Bool.false_ne_true
  have hwhole := (all_closed_or _).resolve_left hopen
  rwa [chars, List.length_map] at hwhole

/-- **Comments are read as they are written**: those in the text are the run that is read. -/
theorem Comments.reads (h : Comments t run tail) :
    decode t = decode run.flatten ++ decode tail ∧
      runSize (commentRun (chars (decode t))) = (decode run.flatten).length := by
  induction h with
  | @stop t h =>
    have hnone : comment? (chars (decode t)) = none := by
      rcases ha : comment? (chars (decode t)) with _ | a
      · rfl
      · obtain ⟨r, hr⟩ := exists_of_comment? ha
        refine absurd ?_ h
        rw [← opening_prefix_iff, hr]
        exact ⟨r, rfl⟩
    rw [commentRun_of_none hnone]
    exact ⟨rfl, rfl⟩
  | @unclosed c h =>
    rw [List.flatten_singleton]
    exact ⟨(List.append_nil _).symm, runSize_unclosed h⟩
  | @closed c t tail run h _ ih =>
    obtain ⟨hdecode, hrun⟩ := ih
    obtain ⟨hfront, hcomment⟩ := h.reads t
    have hflatten := (h.reads run.flatten).1
    rw [List.flatten_cons, hcomment, runSize, hrun, hfront, hflatten, hdecode, List.length_append]
    exact ⟨(List.append_assoc _ _ _).symm, rfl⟩

end Stylesheet.Text

namespace Stylesheet

open Stylesheet.Text

namespace Source

variable {s : Source} {t : Token} {run : List (List Char)} {tail : List Char}

/-! ### Tokens of comments -/

lemma kind_comments_iff :
    s.token.kind = .comments ↔ ['/', '*'] <+: s.text.drop s.location := by
  rw [← opening_prefix_iff, token_kind]
  constructor
  · intro h
    obtain ⟨a, ha⟩ := exists_comment_of_kind h
    obtain ⟨r, hr⟩ := exists_of_comment? ha
    exact ⟨r, hr.symm⟩
  · rintro ⟨r, hr⟩
    obtain ⟨a, ha⟩ := exists_comment r
    have hrest : s.rest = '/' :: '*' :: r := hr.symm
    rw [hrest, lex_of_comment ha]
    rfl

lemma stop_of_comments (h : Comments (s.text.drop s.location) run tail)
    (hkind : s.token.kind = .comments) : s.token.stop = s.location + run.flatten.length := by
  obtain ⟨a, ha⟩ := exists_comment_of_kind hkind
  obtain ⟨hdecode, hsize⟩ := h.reads
  have hlex : (lex s.rest).size = (decode run.flatten).length := by
    rw [lex_of_comment ha]
    exact hsize
  rw [token_stop, locationAfter, hlex, ahead, hdecode, List.take_left, width_decode]

/-- What the comments that stand at a token, with `tail` behind them, say of the token. -/
structure CommentsEnd (s : Source) (t : Token) (run : List (List Char)) (tail : List Char) :
    Prop where
  kind_iff : t.kind = .comments ↔ run ≠ []
  /-- The token takes the comments, and nothing else. -/
  raw : t.kind = .comments → s.slice t.start t.stop = .ok run.flatten
  behind : t.kind = .comments → s.text.drop t.stop = tail
  maximal : t.kind = .comments → ¬ ['/', '*'] <+: s.text.drop t.stop

lemma commentsEnd (ht : t ∈ s.tokens) (h : Comments (s.text.drop t.start) run tail) :
    s.CommentsEnd t run tail := by
  obtain ⟨hlt, hthere⟩ := standsIn_of_mem_tokens ht
  have hkind : t.kind = .comments ↔ run ≠ [] := by
    rw [h.ne_nil_iff, ← hthere]
    exact kind_comments_iff
  have hstop : t.kind = .comments → t.stop = t.start + run.flatten.length := by
    rw [← hthere]
    exact stop_of_comments h
  have hbehind : t.kind = .comments → s.text.drop t.stop = tail := by
    intro hcomments
    rw [hstop hcomments, ← List.drop_drop, h.text_eq, List.drop_left]
  refine ⟨hkind, fun hcomments => ?_, hbehind, fun hcomments => ?_⟩
  · have hlength := congrArg List.length h.text_eq
    rw [List.length_drop, List.length_append] at hlength
    rw [slice, hstop hcomments, if_pos (by omega), Nat.add_sub_cancel_left, h.text_eq,
      List.take_left]
  · rw [hbehind hcomments]
    exact h.not_opening

lemma kind_next_of_comments (h : s.token.kind = .comments) : s.next.token.kind ≠ .comments := by
  have hlt : s.location < s.text.length := kind_ne_eof_iff.mp (by simp [h])
  obtain ⟨run, tail, hrun⟩ := exists_comments (s.text.drop s.location)
  have hends : s.CommentsEnd s.token run tail := commentsEnd (token_mem_tokens hlt) hrun
  rw [Ne, kind_comments_iff]
  exact hends.maximal h

lemma isChain_kinds (s : Source) :
    s.tokens.IsChain fun t u => ¬ (t.kind = .comments ∧ u.kind = .comments) := by
  induction s using next_induction with
  | atEnd s hend =>
    rw [tokens_of_end hend]
    exact .nil
  | step s hlt ih =>
    rw [tokens_cons hlt, List.isChain_cons]
    refine ⟨?_, ih⟩
    rintro u hu ⟨hcomments, hnext⟩
    rcases Nat.lt_or_ge s.next.location s.next.text.length with hlt' | hend
    · rw [tokens_cons hlt', List.head?_cons, Option.mem_some_iff] at hu
      rw [← hu] at hnext
      exact kind_next_of_comments hcomments hnext
    · rw [tokens_of_end hend] at hu
      cases hu

/-- **Comments end at their terminators.** Whatever token stands in a text, the text there starts
with some comments, or none, each of which goes on to the first terminator behind its opening, but
the last one to the end of the text if there is none. The token is one of comments just where there
are some; then it takes all of them, and what is behind it opens no other. So no two tokens of
comments follow each other. -/
theorem comments_end_at_terminators (s : Source) :
    (∀ t ∈ s.tokens, (∃ run tail, Comments (s.text.drop t.start) run tail) ∧
      ∀ run tail, Comments (s.text.drop t.start) run tail → s.CommentsEnd t run tail) ∧
    s.tokens.IsChain fun t u => ¬ (t.kind = .comments ∧ u.kind = .comments) :=
  ⟨fun _ ht => ⟨exists_comments _, fun _ _ => commentsEnd ht⟩, s.isChain_kinds⟩

/-- Three comments behind a name. The slash behind the first opening ends nothing, nor does the star
behind the second; the third has a line ending of two characters and a NUL in it, and no
terminator. -/
theorem comments_end_at_terminators_open :
    let s : Source := ⟨['a', '/', '*', '/', '*', '/', '/', '*', '*', '*', '/', '/', '*', '\r', '\n',
      '\x00', '*'], 0⟩
    let t : Token := ⟨.comments, ⟨1, 16⟩, some .unterminatedComment⟩
    let run := [['/', '*', '/', '*', '/'], ['/', '*', '*', '*', '/'],
      ['/', '*', '\r', '\n', '\x00', '*']]
    t ∈ s.tokens ∧ Comments (s.text.drop t.start) run [] ∧ s.CommentsEnd t run [] := by
  intro s t run
  have ht : t ∈ s.tokens := by decide
  have hslash : EndsFirst ['/', '*', '/'] := endsFirst_iff.mpr ⟨['/'], by decide, rfl⟩
  have hstar : EndsFirst ['*', '*', '/'] := endsFirst_iff.mpr ⟨['*'], by decide, rfl⟩
  have hopen : ¬ ['*', '/'] <:+: ['\r', '\n', '\x00', '*'] := by decide
  have hrun : Comments (s.text.drop t.start) run [] :=
    .closed hslash (.closed hstar (.unclosed hopen))
  exact ⟨ht, hrun, ((comments_end_at_terminators s).1 t ht).2 run [] hrun⟩

end Source

end Stylesheet
