import Stylesheet.Proofs.Cutting

/-!
A comment between tokens. It joins the runs of comments that touch it, whether they come before it
or behind it, and changes no other token; so the tree stays the same with its places moved, and the
problems stay the same in the same order.
-/

namespace Stylesheet.Text

/-! ### The text of a comment -/

def comment (body : List Char) : List Char := '/' :: '*' :: (body ++ ['*', '/'])

lemma length_comment (body : List Char) : (comment body).length = body.length + 4 := by
  simp [comment]

lemma comment_append (body r : List Char) :
    comment body ++ r = '/' :: '*' :: (body ++ '*' :: '/' :: r) := by
  simp [comment]

/-! ### Terminators -/

lemma terminator_prefix_iff {c : Char} {r : List Char} :
    ['*', '/'] <+: c :: r ↔ c = '*' ∧ r.head? = some '/' := by
  rw [List.cons_prefix_cons, eq_comm]
  refine and_congr_right fun _ => ?_
  rcases r with _ | ⟨d, t⟩
  · simp
  · simp [eq_comm]

lemma commentRest?_eq_none_iff {cs : List Char} :
    commentRest? cs = none ↔ ¬ ['*', '/'] <:+: cs := by
  induction cs with
  | nil => simp [commentRest?]
  | cons c r ih =>
    rw [commentRest?_cons, List.infix_cons_iff, terminator_prefix_iff, not_or, ← ih]
    split_ifs with h <;> simp [h]

lemma commentRest?_of_tail {c : Char} {r : List Char} {n : ℕ}
    (hc : ¬ (c = '*' ∧ r.head? = some '/')) (h : commentRest? r = some n) :
    commentRest? (c :: r) = some (n + 1) := by
  rw [commentRest?_cons, if_neg hc, h, Option.map_some, Nat.add_comm]

lemma commentRest?_eq_some_iff {cs : List Char} {n : ℕ} : commentRest? cs = some n ↔
    ∃ body r, ¬ ['*', '/'] <:+: body ∧ cs = body ++ '*' :: '/' :: r ∧ n = body.length + 2 := by
  constructor
  · intro h
    induction cs generalizing n with
    | nil => cases h
    | cons c r ih =>
      rw [commentRest?_cons] at h
      split_ifs at h with hhere
      · cases h
        obtain ⟨rfl, hslash⟩ := hhere
        obtain ⟨t, rfl⟩ := List.head?_eq_some_iff.mp hslash
        exact ⟨[], t, by simp, rfl, rfl⟩
      · obtain ⟨m, hm, rfl⟩ := Option.map_eq_some_iff.mp h
        obtain ⟨body, t, hbody, rfl, rfl⟩ := ih hm
        refine ⟨c :: body, t, ?_, rfl, by rw [List.length_cons]; omega⟩
        rw [List.infix_cons_iff, terminator_prefix_iff, not_or]
        refine ⟨fun ⟨hstar, hslash⟩ => hhere ⟨hstar, ?_⟩, hbody⟩
        rw [List.head?_append, hslash]
        rfl
  · rintro ⟨body, t, hbody, rfl, rfl⟩
    induction body with
    | nil => rfl
    | cons c body ih =>
      rw [List.infix_cons_iff, terminator_prefix_iff, not_or] at hbody
      rw [List.cons_append, List.length_cons, Nat.add_right_comm]
      refine commentRest?_of_tail (fun ⟨hstar, hslash⟩ => hbody.1 ⟨hstar, ?_⟩) (ih hbody.2)
      rcases body with _ | ⟨d, body⟩
      · cases hslash
      · exact hslash

lemma comment?_closed {body : List Char} (h : ¬ ['*', '/'] <:+: body) (r : List Char) :
    comment? (comment body ++ r) = some ⟨(comment body).length, true⟩ := by
  have hsome := commentRest?_eq_some_iff.mpr ⟨body, r, h, rfl, rfl⟩
  rw [comment_append, comment?, hsome, length_comment]
  simp only
  congr 2
  omega

lemma comment?_unclosed {body : List Char} (h : ¬ ['*', '/'] <:+: body) :
    comment? ('/' :: '*' :: body) = some ⟨2 + body.length, false⟩ := by
  rw [comment?, commentRest?_eq_none_iff.mpr h]

lemma comment?_cases {cs : List Char} {a : Comment} (h : comment? cs = some a) :
    (∃ body r, ¬ ['*', '/'] <:+: body ∧ cs = comment body ++ r ∧
        a = ⟨(comment body).length, true⟩) ∨
      ∃ body, ¬ ['*', '/'] <:+: body ∧ cs = '/' :: '*' :: body ∧
        a = ⟨2 + body.length, false⟩ := by
  obtain ⟨r, rfl⟩ := exists_of_comment? h
  rcases hrest : commentRest? r with _ | n
  · have hbody := commentRest?_eq_none_iff.mp hrest
    rw [comment?_unclosed hbody] at h
    cases h
    exact .inr ⟨r, hbody, rfl, rfl⟩
  · obtain ⟨body, t, hbody, rfl, -⟩ := commentRest?_eq_some_iff.mp hrest
    rw [← comment_append] at h ⊢
    rw [comment?_closed hbody] at h
    cases h
    exact .inl ⟨body, t, hbody, rfl, rfl⟩

/-! ### Comments as they are read -/

lemma decode_comment (body : List Char) :
    decode (comment body) =
      ⟨'/', 1⟩ :: ⟨'*', 1⟩ :: (decode body ++ [⟨'*', 1⟩, ⟨'/', 1⟩]) := by
  rw [comment, decode_cons (by simp), decode_cons (by simp), decode_append (by simp)]
  rfl

lemma decode_comment_append (body more : List Char) :
    decode (comment body ++ more) = decode (comment body) ++ decode more := by
  have hend : comment body = ('/' :: '*' :: body ++ ['*']) ++ ['/'] := by simp [comment]
  refine decode_append fun hlast => ?_
  rw [hend, List.getLast?_concat] at hlast
  cases hlast

lemma terminator_infix_iff {t : List Char} : ['*', '/'] <:+: chars (decode t) ↔ ['*', '/'] <:+: t :=
  infix_chars_decode_iff (List.forall_iff_forall_mem.mp (by decide))

lemma opening_prefix_iff {t : List Char} : ['/', '*'] <+: chars (decode t) ↔ ['/', '*'] <+: t :=
  prefix_chars_decode_iff (List.forall_iff_forall_mem.mp (by decide))

lemma comment?_comment {body : List Char} (h : ¬ ['*', '/'] <:+: body) (r : List Char) :
    comment? (chars (decode (comment body)) ++ r) =
      some ⟨(decode (comment body)).length, true⟩ := by
  have hread : chars (decode (comment body)) = comment (chars (decode body)) := by
    rw [decode_comment]
    simp [chars, comment]
  have hlength : (decode (comment body)).length = (chars (decode (comment body))).length :=
    (List.length_map _).symm
  rw [hlength, hread, comment?_closed (terminator_infix_iff.not.mpr h)]

/-! ### Runs of comments -/

section runs

variable {u v w : List Char}

lemma commentRun_of_none {cs : List Char} (h : comment? cs = none) : commentRun cs = [] :=
  units_of_none _ _ h

lemma commentRun_of_some {cs : List Char} {a : Comment} (h : comment? cs = some a) :
    commentRun cs = a :: commentRun (cs.drop a.size) :=
  units_of_some comment?_advances h

lemma runSize_append (as bs : List Comment) : runSize (as ++ bs) = runSize as + runSize bs := by
  induction as with
  | nil => rw [List.nil_append, runSize, Nat.zero_add]
  | cons a as ih => rw [List.cons_append, runSize, runSize, ih, Nat.add_assoc]

/-- A run of comments that ends with the front part of a text goes on with the comments of what is
put behind it. -/
lemma commentRun_append_run (hv : v ≠ []) (h : runSize (commentRun (u ++ v)) = u.length) :
    commentRun (u ++ w) = commentRun (u ++ v) ++ commentRun w := by
  induction hn : u.length using Nat.strongRecOn generalizing u with
  | ind n ih =>
    rcases ha : comment? (u ++ v) with _ | a
    · rw [commentRun_of_none ha] at h ⊢
      obtain rfl := List.length_eq_zero_iff.mp h.symm
      rfl
    · have hpos := two_le_size_of_comment? ha
      rw [commentRun_of_some ha, runSize] at h
      have hle : a.size ≤ u.length := by omega
      rw [drop_append_le hle] at h
      rw [commentRun_of_some ha, commentRun_of_some (comment?_append hv u a ha hle),
        drop_append_le hle, drop_append_le hle, List.cons_append,
        ih (u.drop a.size).length (by rw [List.length_drop]; omega) _ rfl]
      rw [List.length_drop]
      omega

lemma size_of_not_closed {cs : List Char} {a : Comment} (h : comment? cs = some a)
    (hclosed : a.closed = false) : a.size = cs.length := by
  rcases comment?_cases h with ⟨body, r, -, rfl, rfl⟩ | ⟨body, -, rfl, rfl⟩
  · cases hclosed
  · exact Nat.add_comm 2 _

lemma all_closed_or (cs : List Char) :
    (commentRun cs).all Comment.closed ∨ runSize (commentRun cs) = cs.length := by
  induction cs using units_induction comment?_advances with
  | stop cs ha _ =>
    rw [commentRun_of_none ha]
    exact .inl rfl
  | unit cs a ha _ ih =>
    have hle := (comment?_advances ha).2
    rw [commentRun_of_some ha, List.all_cons, runSize]
    rcases hclosed : a.closed
    · have hwhole := size_of_not_closed ha hclosed
      have hnil : cs.drop a.size = [] := List.drop_eq_nil_iff.mpr (Nat.le_of_eq hwhole.symm)
      refine .inr ?_
      rw [hnil, commentRun_of_none rfl, runSize]
      omega
    · rw [Bool.true_and]
      refine ih.imp id fun hsize => ?_
      rw [List.length_drop] at hsize
      omega

/-- A run of comments with something behind it: it is closed, comments that are put behind it join
it, and what stands behind it is none. -/
lemma commentRun_inside {cs : List Char} (h : cs.drop (runSize (commentRun cs)) ≠ []) :
    (commentRun cs).all Comment.closed ∧
      (∀ w, commentRun (cs.take (runSize (commentRun cs)) ++ w) = commentRun cs ++ commentRun w) ∧
      comment? (cs.drop (runSize (commentRun cs))) = none := by
  have hlt : runSize (commentRun cs) < cs.length := by
    rwa [Ne, List.drop_eq_nil_iff, Nat.not_le] at h
  have hjoin : ∀ w, commentRun (cs.take (runSize (commentRun cs)) ++ w) =
      commentRun cs ++ commentRun w := by
    intro w
    have hrun := commentRun_append_run (u := cs.take (runSize (commentRun cs))) (w := w) h
    rw [List.take_append_drop, List.length_take, Nat.min_eq_left (Nat.le_of_lt hlt)] at hrun
    exact hrun rfl
  refine ⟨(all_closed_or cs).resolve_right (Nat.ne_of_lt hlt), hjoin, ?_⟩
  rw [runSize_eq_taken]
  exact declines_behind_units comment?_advances cs

end runs

end Stylesheet.Text

namespace Stylesheet

open Stylesheet.Text

lemma lex_of_comment {cs : List Char} {a : Comment} (h : comment? cs = some a) :
    lex cs = .comments cs := by
  obtain ⟨r, rfl⟩ := exists_of_comment? h
  rfl

lemma exists_comment_of_kind {cs : List Char} (h : (lex cs).kind = .comments) :
    ∃ a, comment? cs = some a := by
  rcases cs with _ | ⟨c, r⟩
  · cases h
  have hstring := Lexeme.string_kind c r
  have hnamed := Lexeme.named_kind (c :: r)
  obtain hlex | hlex | hlex | ⟨hopen, -⟩ | hother := lex_cases c r
  · simp [hlex] at h
  · simp [← hlex, h] at hstring
  · simp [← hlex, h] at hnamed
  · obtain ⟨t, ht⟩ := List.isPrefixOf_iff_prefix.mp hopen
    rw [← ht]
    exact exists_comment t
  · simp [h] at hother

namespace Source

variable {s : Source}

/-! ### Behind a run of comments -/

/-- The source behind the comments it stands before, if any. -/
def pastRun (s : Source) : Source := s.skip (runSize (commentRun s.rest))

lemma pastRun_of_none (h : comment? s.rest = none) : s.pastRun = s := by
  rw [pastRun, commentRun_of_none h]
  rfl

lemma pastRun_of_some {a : Comment} (h : comment? s.rest = some a) : s.pastRun = s.next := by
  rw [pastRun, next, token_stop, lex_of_comment h]
  rfl

lemma lt_length_of_comment {a : Comment} (h : comment? s.rest = some a) :
    s.location < s.text.length := by
  obtain ⟨r, hrest⟩ := exists_of_comment? h
  exact lt_length_of_rest hrest

lemma token_of_comment {a : Comment} (h : comment? s.rest = some a) :
    s.token.kind = .comments ∧ s.token.error =
      if (commentRun s.rest).all Comment.closed then none else some .unterminatedComment := by
  rw [token, lex_of_comment h]
  exact ⟨rfl, rfl⟩

lemma material_pastRun (s : Source) : s.pastRun.material = s.material := by
  rcases h : comment? s.rest with _ | a
  · rw [pastRun_of_none h]
  · rw [pastRun_of_some h, material_of_comments (token_of_comment h).1]

lemma lexical_pastRun (hclosed : (commentRun s.rest).all Comment.closed) :
    s.pastRun.tokens.filterMap Token.finding? = s.tokens.filterMap Token.finding? := by
  rcases h : comment? s.rest with _ | a
  · rw [pastRun_of_none h]
  · have herror := (token_of_comment h).2
    rw [if_pos hclosed] at herror
    rw [pastRun_of_some h, tokens_cons (lt_length_of_comment h), List.filterMap_cons_none]
    rw [Token.finding?, herror]
    rfl

lemma tokens_of_unclosed (hclosed : ¬ (commentRun s.rest).all Comment.closed) :
    s.tokens = [s.token] ∧ s.token.kind = .comments ∧
      s.token.error = some .unterminatedComment := by
  rcases h : comment? s.rest with _ | a
  · rw [commentRun_of_none h] at hclosed
    exact absurd rfl hclosed
  · obtain ⟨hkind, herror⟩ := token_of_comment h
    rw [if_neg hclosed] at herror
    refine ⟨?_, hkind, herror⟩
    have hwhole := (all_closed_or s.rest).resolve_left hclosed
    have hnil : s.next.rest = [] := by
      rw [next_rest, lex_of_comment h, List.drop_eq_nil_iff]
      exact Nat.le_of_eq hwhole.symm
    rw [tokens_cons (lt_length_of_comment h), tokens_of_end (rest_eq_nil_iff.mp hnil)]

/-! ### Comments in front -/

/-- The source `m` stands before the closed comments `xs`, which are the code points `ps`; behind
them it reads on like `r`, but `d` characters further on. -/
structure Fronts (m r : Source) (ps : List CodePoint) (xs : List Comment) (d : ℕ) : Prop where
  ahead : m.ahead = ps ++ r.ahead
  location : m.location + width ps = r.location + d
  size : runSize xs = ps.length
  closed : xs.all Comment.closed
  /-- Whatever comments come behind join them. -/
  joined : ∀ w, commentRun (chars ps ++ w) = xs ++ commentRun w

namespace Fronts

variable {m r : Source} {ps : List CodePoint} {xs : List Comment} {d : ℕ}

lemma commentRun_rest (h : m.Fronts r ps xs d) : commentRun m.rest = xs ++ commentRun r.rest := by
  rw [Source.rest, h.ahead, chars_append, h.joined, ← Source.rest]

lemma all_closed (h : m.Fronts r ps xs d) :
    (commentRun m.rest).all Comment.closed = (commentRun r.rest).all Comment.closed := by
  rw [h.commentRun_rest, List.all_append, h.closed, Bool.true_and]

lemma tokens_pastRun (h : m.Fronts r ps xs d) :
    m.pastRun.tokens = r.pastRun.tokens.map (Token.relocate (· + d)) := by
  have hsize : runSize (commentRun m.rest) = ps.length + runSize (commentRun r.rest) := by
    rw [h.commentRun_rest, runSize_append, h.size]
  refine tokens_add ?_ ?_
  · have hlocation := h.location
    rw [pastRun, pastRun, skip, skip, locationAfter, locationAfter, hsize, h.ahead,
      List.take_append, width_append, List.take_of_length_le (Nat.le_add_right _ _),
      Nat.add_sub_cancel_left]
    change m.location + (width ps + _) = r.location + _ + d
    omega
  · rw [pastRun, pastRun, skip_ahead, skip_ahead, hsize, h.ahead, ← List.drop_drop,
      List.drop_left]

lemma material (h : m.Fronts r ps xs d) :
    m.material = r.material.map (Token.relocate (· + d)) := by
  rw [← m.material_pastRun, ← r.material_pastRun, Source.material, Source.material,
    h.tokens_pastRun, List.filter_map]
  rfl

lemma lexical (h : m.Fronts r ps xs d) (hclosed : (commentRun r.rest).all Comment.closed) :
    m.tokens.filterMap Token.finding? =
      (r.tokens.filterMap Token.finding?).map (Finding.relocate (· + d)) := by
  rw [← lexical_pastRun (h.all_closed.trans hclosed), ← lexical_pastRun hclosed, h.tokens_pastRun,
    filterMap_finding?_relocate]

lemma insert (h : m.Fronts r ps xs d) {n : Source} {body : List Char}
    (hbody : ¬ ['*', '/'] <:+: body) (hahead : n.ahead = ps ++ decode (comment body) ++ r.ahead)
    (hlocation : n.location = m.location) :
    n.Fronts r (ps ++ decode (comment body)) (xs ++ [⟨(decode (comment body)).length, true⟩])
      (d + (body.length + 4)) where
  ahead := hahead
  location := by
    rw [hlocation, width_append, width_decode, length_comment, ← Nat.add_assoc, h.location,
      Nat.add_assoc]
  size := by
    rw [runSize_append, h.size, List.length_append]
    rfl
  closed := by
    rw [List.all_append, h.closed]
    rfl
  joined w := by
    rw [chars_append, List.append_assoc, h.joined, commentRun_of_some (comment?_comment hbody w),
      List.append_assoc, List.drop_left']
    · rfl
    · rw [chars, List.length_map]

end Fronts

/-! ### The run that a comment joins -/

variable {p : ℕ}

/-- The run of comments before a place in the text, which starts at `q`. -/
structure RunBefore (s : Source) (p q : ℕ) : Prop where
  mem : q ∈ s.starts
  /-- No token before `q` is a part of it. -/
  first : ∀ t ∈ s.tokens, t.start < q → t.stop = p → t.kind ≠ .comments
  /-- If it is not empty, it has no comment behind it. -/
  last : q = p ∨ comment? (⟨s.text, p⟩ : Source).rest = none
  fronts : ∃ k xs, p = (⟨s.text, q⟩ : Source).locationAfter k ∧
    (⟨s.text, q⟩ : Source).Fronts ⟨s.text, p⟩ ((⟨s.text, q⟩ : Source).ahead.take k) xs 0

lemma runBefore_self (hp : p ∈ s.starts)
    (hnone : ¬ ∃ t ∈ s.tokens, t.stop = p ∧ t.kind = .comments) : s.RunBefore p p where
  mem := hp
  first t ht _ hstop hkind := hnone ⟨t, ht, hstop, hkind⟩
  last := .inl rfl
  fronts := ⟨0, [], rfl, rfl, rfl, rfl, rfl, fun _ => rfl⟩

lemma runBefore_token (h : s.location ≤ s.text.length) {t : Token} (ht : t ∈ s.tokens)
    (hlt : t.stop < s.text.length) (hkind : t.kind = .comments) :
    s.RunBefore t.stop t.start := by
  obtain ⟨hinside, hthere⟩ := standsIn_of_mem_tokens ht
  rw [← hthere, token_kind] at hkind
  obtain ⟨a, ha⟩ := exists_comment_of_kind hkind
  have hnext : (⟨s.text, t.start⟩ : Source).pastRun = ⟨s.text, t.stop⟩ := by
    rw [pastRun_of_some ha, next, hthere]
  have hahead := skip_ahead ⟨s.text, t.start⟩
    (runSize (commentRun (⟨s.text, t.start⟩ : Source).rest))
  rw [← pastRun, hnext] at hahead
  have hrest : (⟨s.text, t.start⟩ : Source).rest.drop
      (runSize (commentRun (⟨s.text, t.start⟩ : Source).rest)) =
        (⟨s.text, t.stop⟩ : Source).rest := by
    rw [← skip_rest, ← pastRun, hnext]
  have hmore : (⟨s.text, t.stop⟩ : Source).rest ≠ [] := by
    rw [Ne, rest_eq_nil_iff]
    exact Nat.not_le.mpr hlt
  rw [← hrest] at hmore
  obtain ⟨hclosed, hjoin, hnone⟩ := commentRun_inside hmore
  have hlocation := (congrArg Source.location hnext).symm
  refine ⟨start_mem_starts ht, ?_, .inr (by rw [← hrest, hnone]), _, _, hlocation, ?_, ?_, ?_,
    hclosed, ?_⟩
  · intro b hb hbefore hstop
    have hle := stop_le_of_start_lt h (start_mem_starts ht) hb hbefore
    have hpos := start_lt_stop ht
    omega
  · rw [hahead, List.take_append_drop]
  · exact hlocation.symm
  · rw [List.length_take, ← length_rest, Nat.min_eq_left]
    rw [Ne, List.drop_eq_nil_iff] at hmore
    omega
  · intro w
    rw [chars_take, ← rest, hjoin]

lemma exists_runBefore (h : s.location ≤ s.text.length) (hp : p ∈ s.starts)
    (hlt : p < s.text.length) : ∃ q, s.RunBefore p q := by
  by_cases hrun : ∃ t ∈ s.tokens, t.stop = p ∧ t.kind = .comments
  · obtain ⟨t, ht, rfl, hkind⟩ := hrun
    exact ⟨t.start, runBefore_token h ht hlt hkind⟩
  · exact ⟨p, runBefore_self hp hrun⟩

/-! ### The text with the comment -/

/-- The source with a comment at the place `p`. -/
def annotate (s : Source) (p : ℕ) (body : List Char) : Source :=
  s.splice p (comment body ++ s.text.drop p)

end Source

/-- Moves what is at `p` or behind it `d` further on. -/
def shiftFrom (p d n : ℕ) : ℕ := if p ≤ n then n + d else n

lemma strictMono_shiftFrom (p d : ℕ) : StrictMono (shiftFrom p d) := by
  intro a b hab
  unfold shiftFrom
  split_ifs <;> omega

namespace Token

variable {t : Token} {p d : ℕ}

lemma relocate_of_lt (h : t.start < p) : t.relocate (shiftFrom p d) = t :=
  relocate_congr (show shiftFrom p d t.start = id t.start from if_neg (Nat.not_le.mpr h))

lemma relocate_of_le (h : p ≤ t.start) : t.relocate (shiftFrom p d) = t.relocate (· + d) :=
  relocate_congr (if_pos h)

lemma map_relocate_shiftFrom {ts us : List Token} (hts : ∀ t ∈ ts, t.start < p)
    (hus : ∀ t ∈ us, p ≤ t.start) :
    (ts ++ us).map (relocate (shiftFrom p d)) = ts ++ us.map (relocate (· + d)) := by
  have hbefore : ts.map (relocate (shiftFrom p d)) = ts.map id :=
    List.map_congr_left fun t ht => relocate_of_lt (hts t ht)
  have hbehind : us.map (relocate (shiftFrom p d)) = us.map (relocate (· + d)) :=
    List.map_congr_left fun t ht => relocate_of_le (hus t ht)
  rw [List.map_append, hbefore, hbehind, List.map_id]

end Token

namespace Source

variable {s : Source} {p q : ℕ} {body : List Char}

lemma neutral_comment (body more : List Char) : Neutral (comment body ++ more) := .inr ⟨_, rfl⟩

lemma RunBefore.le (h : s.RunBefore p q) : q ≤ p := by
  obtain ⟨k, xs, hp, -⟩ := h.fronts
  rw [hp]
  exact Nat.le_add_right _ _

lemma RunBefore.fronts_annotate (h : s.RunBefore p q) (hq : q ≤ s.text.length)
    (hbody : ¬ ['*', '/'] <:+: body) : ∃ ps xs,
    (⟨(s.annotate p body).text, q⟩ : Source).Fronts ⟨s.text, p⟩ ps xs (body.length + 4) := by
  obtain ⟨k, xs, hp, hfronts⟩ := h.fronts
  have hahead := ahead_splice (s := ⟨s.text, q⟩) hq k (neutral_comment body (s.text.drop p))
  rw [← hp, decode_comment_append, ← List.append_assoc] at hahead
  have hinsert := hfronts.insert (n := ⟨(s.annotate p body).text, q⟩) hbody hahead rfl
  rw [Nat.zero_add] at hinsert
  exact ⟨_, _, hinsert⟩

lemma RunBefore.start_lt (h : s.RunBefore p q) {t : Token}
    (ht : t ∈ s.tokens.filter (·.start < q)) : t.start < p :=
  Nat.lt_of_lt_of_le (of_decide_eq_true (List.mem_filter.mp ht).2) h.le

section annotate

variable (h : s.location ≤ s.text.length) (hp : p ∈ s.starts) (hlt : p < s.text.length)
  (hopen : ¬ s.Open p) (hrun : s.RunBefore p q)

include h hrun

lemma RunBefore.material : s.material =
    (s.tokens.filter (·.start < q)).filter (fun t => t.kind ≠ .comments) ++
      (⟨s.text, p⟩ : Source).material := by
  obtain ⟨_, _, -, hfronts⟩ := hrun.fronts
  have hbehind := hfronts.material
  have hsplit := congrArg (List.filter fun t => t.kind ≠ .comments) (tokens_split h hrun.mem)
  rw [map_relocate_zero] at hbehind
  rw [List.filter_append] at hsplit
  rw [← hbehind]
  exact hsplit

lemma RunBefore.lexical (hclosed : (commentRun (⟨s.text, p⟩ : Source).rest).all Comment.closed) :
    s.tokens.filterMap Token.finding? =
      (s.tokens.filter (·.start < q) ++
        (⟨s.text, p⟩ : Source).tokens).filterMap Token.finding? := by
  obtain ⟨_, _, -, hfronts⟩ := hrun.fronts
  have hbehind := hfronts.lexical hclosed
  rw [← filterMap_finding?_relocate, map_relocate_zero] at hbehind
  conv_lhs => rw [tokens_split h hrun.mem, List.filterMap_append, hbehind]
  rw [List.filterMap_append]

include hp hlt hopen

lemma tokens_annotate (body : List Char) : (s.annotate p body).tokens =
    s.tokens.filter (·.start < q) ++ (⟨(s.annotate p body).text, q⟩ : Source).tokens :=
  tokens_splice h hp hlt hrun.mem hrun.le (neutral_comment _ _) hopen fun _ => hrun.first

/-- Of the tokens without the comments, those before the comment stay and the others move. -/
lemma material_annotate (hbody : ¬ ['*', '/'] <:+: body) : (s.annotate p body).material =
    s.material.map (Token.relocate (shiftFrom p (body.length + 4))) := by
  have hq := Nat.le_trans hrun.le (Nat.le_of_lt hlt)
  obtain ⟨_, _, hfronts⟩ := hrun.fronts_annotate hq hbody
  rw [hrun.material h, Token.map_relocate_shiftFrom, ← hfronts.material, material,
    tokens_annotate h hp hlt hopen hrun, List.filter_append]
  · rfl
  · exact fun t ht => hrun.start_lt (List.mem_filter.mp ht).1
  · intro t ht
    exact location_le_start (s := ⟨s.text, p⟩) (Nat.le_of_lt hlt) (List.mem_filter.mp ht).1

/-- Closed comments change the problems of the tokens as they change the tokens. -/
lemma lexical_annotate (hbody : ¬ ['*', '/'] <:+: body)
    (hclosed : (commentRun (⟨s.text, p⟩ : Source).rest).all Comment.closed) :
    (s.annotate p body).tokens.filterMap Token.finding? =
      (s.tokens.filterMap Token.finding?).map
        (Finding.relocate (shiftFrom p (body.length + 4))) := by
  have hq := Nat.le_trans hrun.le (Nat.le_of_lt hlt)
  obtain ⟨_, _, hfronts⟩ := hrun.fronts_annotate hq hbody
  rw [hrun.lexical h hclosed, ← filterMap_finding?_relocate, Token.map_relocate_shiftFrom,
    tokens_annotate h hp hlt hopen hrun, List.filterMap_append, List.filterMap_append,
    hfronts.lexical hclosed, filterMap_finding?_relocate]
  · exact fun t ht => hrun.start_lt ht
  · exact fun t ht => location_le_start (s := ⟨s.text, p⟩) (Nat.le_of_lt hlt) ht

/-- A comment at `p` that has no end is the last token, and it now starts with the one before it. -/
lemma alike_of_unclosed (hbody : ¬ ['*', '/'] <:+: body)
    (hclosed : ¬ (commentRun (⟨s.text, p⟩ : Source).rest).all Comment.closed) :
    (s.annotate p body).material = s.material.map (Token.relocate id) ∧
      List.Forall₂ (Finding.Alike id) (s.tokens.filterMap Token.finding?)
        ((s.annotate p body).tokens.filterMap Token.finding?) := by
  obtain rfl : q = p := by
    refine hrun.last.resolve_right fun hnone => hclosed ?_
    rw [commentRun_of_none hnone]
    rfl
  obtain ⟨_, _, hfronts⟩ := hrun.fronts_annotate (Nat.le_of_lt hlt) hbody
  obtain ⟨hold, hkind, herror⟩ := tokens_of_unclosed hclosed
  obtain ⟨hnew, -, herror'⟩ := tokens_of_unclosed (hfronts.all_closed ▸ hclosed)
  constructor
  · have hnone : (⟨s.text, q⟩ : Source).material = [] := by
      rw [material, hold, List.filter_eq_nil_iff]
      simp [hkind]
    have hsplit := hrun.material h
    rw [hnone, List.append_nil] at hsplit
    rw [material_annotate h hp hlt hopen hrun hbody]
    refine List.map_congr_left fun t ht => ?_
    rw [hsplit] at ht
    exact Token.relocate_of_lt (hrun.start_lt (List.mem_filter.mp ht).1)
  · have hsplit := tokens_split h hp
    rw [hold] at hsplit
    have hfound : ∀ t : Token, t.error = some .unterminatedComment →
        [t].filterMap Token.finding? = [⟨.lexical .unterminatedComment, t.span⟩] := by
      intro t ht
      simp [Token.finding?, ht]
    rw [hsplit, tokens_annotate h hp hlt hopen hrun, hnew, List.filterMap_append,
      List.filterMap_append, hfound _ herror, hfound _ herror']
    refine List.rel_append (List.forall₂_same.mpr fun f _ => ⟨rfl, rfl⟩) (.cons ⟨rfl, rfl⟩ .nil)

/-- **The comment and the problems**: the structure and the problems of the tokens are the same, at
places in the same order. -/
lemma exists_alike (hbody : ¬ ['*', '/'] <:+: body) : ∃ σ, StrictMono σ ∧
    (s.annotate p body).material = s.material.map (Token.relocate σ) ∧
    List.Forall₂ (Finding.Alike σ) (s.tokens.filterMap Token.finding?)
      ((s.annotate p body).tokens.filterMap Token.finding?) := by
  by_cases hclosed : (commentRun (⟨s.text, p⟩ : Source).rest).all Comment.closed
  · refine ⟨shiftFrom p (body.length + 4), strictMono_shiftFrom _ _,
      material_annotate h hp hlt hopen hrun hbody, ?_⟩
    rw [lexical_annotate h hp hlt hopen hrun hbody hclosed, List.forall₂_map_right_iff]
    exact List.forall₂_same.mpr fun f _ => f.alike_relocate _
  · exact ⟨id, strictMono_id, alike_of_unclosed h hp hlt hopen hrun hbody hclosed⟩

lemma messages_annotate (hbody : ¬ ['*', '/'] <:+: body) (list : ListKind) :
    ((s.annotate p body).problems list).map (fun f => f.problem.message) =
      (s.problems list).map fun f => f.problem.message := by
  obtain ⟨σ, hσ, hmaterial, hlexical⟩ := exists_alike h hp hlt hopen hrun hbody
  have hsheet : (s.annotate p body).sheet list = (s.sheet list).relocate σ := by
    rw [sheet, hmaterial, consumeRules_relocate]
    rfl
  have hstructural : List.Forall₂ (Finding.Alike σ) (s.sheet list).findings
      ((s.annotate p body).sheet list).findings := by
    rw [hsheet, Sheet.relocate, List.forall₂_map_right_iff]
    exact List.forall₂_same.mpr fun f _ => f.alike_relocate σ
  exact map_message_of_alike (sortFindings_alike hσ (List.rel_append hstructural hlexical))

end annotate

end Source

/-- What a comment of `d` characters at `p` makes of a parse: places at `p` and behind it move, all
but that of the root, which is where the text starts. -/
structure Parse.Annotates (p d : ℕ) (new old : Parse) : Prop where
  skips : new.tree.skips = old.tree.skips
  root : new.tree.components.head? = old.tree.components.head?
  /-- The other components keep their kinds and extras. -/
  others : new.tree.components.tail =
    old.tree.components.tail.map (Component.relocate (shiftFrom p d))
  messages : new.diagnostics.map Diagnostic.message = old.diagnostics.map Diagnostic.message

lemma Parse.annotates_of_sheets {p d start : ℕ} {sheet : Sheet} {fs gs : List Finding}
    (h : gs.map (fun f => f.problem.message) = fs.map fun f => f.problem.message) :
    Parse.Annotates p d ⟨(sheet.relocate (shiftFrom p d)).componentTree start, gs⟩
      ⟨sheet.componentTree start, fs⟩ where
  skips := by
    simp [ComponentTree.skips, SkipTree.skips, Sheet.componentTree, Sheet.tree, Sheet.relocate,
      Rose.sizes_maps, Rose.layouts_maps]
  root := rfl
  others := by
    simp [ComponentTree.components, SkipTree.values, Sheet.componentTree, Sheet.tree,
      Sheet.relocate, Rose.layouts_maps]
  messages := by
    rw [diagnostics, diagnostics, List.map_map, List.map_map]
    exact h

namespace Source

/-- **Comments are invisible to structure**: a comment that is put in where a token starts, unless
the token before depends on what follows it, changes neither the kinds of the components nor how
they are nested, moves their places by its length, and leaves the messages as they are. -/
theorem comment_invisible {text body : List Char} {s : Source} (h : ofChars text = .ok s)
    (hascii : ∀ c ∈ body, c.toNat < 128) (hbody : ¬ ['*', '/'] <:+: body) {p : ℕ}
    (hp : p ∈ s.starts) (hlt : p < text.length) (hfree : ¬ ∃ t ∈ s.tokens, s.Hangs p t)
    (list : ListKind) :
    ∃ s', ofChars (text.take p ++ (['/', '*'] ++ body ++ ['*', '/']) ++ text.drop p) = .ok s' ∧
      match s'.parse list, s.parse list with
      | .ok new, .ok old => Parse.Annotates p (body.length + 4) new old
      | .error e', .error e => e' = e
      | _, _ => False := by
  obtain ⟨rfl, htext⟩ := ofChars_eq_ok_iff.mp h
  obtain ⟨q, hrun⟩ := exists_runBefore (Nat.zero_le _) hp hlt
  refine ⟨(⟨text, 0⟩ : Source).annotate p body, ?_, ?_⟩
  · refine ofChars_eq_ok_iff.mpr ⟨?_, ?_⟩
    · simp [annotate, splice, comment]
    · have hmark : ∀ c ∈ ['/', '*'], c.toNat < 128 := by simp
      simp only [List.mem_append]
      rintro c ((hc | (hc | hc) | hc) | hc)
      · exact htext c (List.mem_of_mem_take hc)
      · exact hmark c hc
      · exact hascii c hc
      · exact hmark c (List.mem_reverse.mp hc)
      · exact htext c (List.mem_of_mem_drop hc)
  · have hmaterial := material_annotate (Nat.zero_le _) hp hlt hfree hrun hbody
    have hmessages := messages_annotate (Nat.zero_le _) hp hlt hfree hrun hbody list
    have hsheet : ((⟨text, 0⟩ : Source).annotate p body).sheet list =
        ((⟨text, 0⟩ : Source).sheet list).relocate (shiftFrom p (body.length + 4)) := by
      rw [sheet, hmaterial, consumeRules_relocate]
      rfl
    rw [parse_eq_reserve, parse_eq_reserve, hsheet, Sheet.written_relocate, reserve, reserve]
    split_ifs
    · exact Parse.annotates_of_sheets hmessages
    · rfl

/-- A star as a comment before a comment without an end, in a block without an end. -/
theorem comment_invisible_unclosed :
    ∃ s', ofChars ['a', '\x7b', '/', '*', '*', '*', '/', '/', '*'] = .ok s' ∧
      match s'.parse .nested, (⟨['a', '\x7b', '/', '*'], 0⟩ : Source).parse .nested with
      | .ok new, .ok old => Parse.Annotates 2 5 new old
      | .error e', .error e => e' = e
      | _, _ => False := by
  have hkinds : ∀ t ∈ (⟨['a', '\x7b', '/', '*'], 0⟩ : Source).tokens,
      t.kind ≠ .badString ∧ t.kind ≠ .delim ∧ t.kind ≠ .function := by decide
  have hascii : ∀ c ∈ ['*'], c.toNat < 128 := by simp
  refine comment_invisible (p := 2) (rfl : ofChars ['a', '\x7b', '/', '*'] = .ok _) hascii
    (by decide) (by decide) (by decide) ?_ .nested
  rintro ⟨t, ht, hangs⟩
  cases hangs with
  | string kind => exact (hkinds t ht).1 kind
  | escape kind => exact (hkinds t ht).2.1 kind
  | url kind => exact (hkinds t ht).2.2 kind

end Source

end Stylesheet
