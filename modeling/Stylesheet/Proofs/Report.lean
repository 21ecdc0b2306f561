import Stylesheet.Proofs.Totality

/-!
The diagnostics of a parse. What is open when the tokens run out is reported from the inside out,
then come the errors that a straight pass over the tokens meets, and all of them are put in the
order of their places, where those at one place stay in the order in which they were found. So no
error is lost or told twice, though the tokens that are handed back are read twice.
-/

namespace Stylesheet

/-! ### Stable sorting -/

/-- The list `ys` is `xs` in the order of their keys: of each key it has the same elements in the
same order. -/
structure StablySorted {β : Type} (key : β → ℕ) (xs ys : List β) : Prop where
  ordered : ys.Pairwise fun a b => key a ≤ key b
  stable : ∀ k, ys.filter (fun a => key a = k) = xs.filter (fun a => key a = k)

namespace StablySorted

variable {β γ : Type} {key : β → ℕ} {xs ys zs : List β}

lemma mem_iff (h : StablySorted key xs ys) {a : β} : a ∈ ys ↔ a ∈ xs := by
  have hmem {l : List β} : a ∈ l ↔ a ∈ l.filter fun b => key b = key a := by simp
  rw [hmem, h.stable, ← hmem]

/-- Lists in order are equal if they have the same elements of each key in the same order. -/
lemma eq_of_filters (hy : ys.Pairwise fun a b => key a ≤ key b)
    (hz : zs.Pairwise fun a b => key a ≤ key b)
    (hsame : ∀ k, ys.filter (fun a => key a = k) = zs.filter (fun a => key a = k)) : ys = zs := by
  induction ys generalizing zs with
  | nil =>
    cases zs with
    | nil => rfl
    | cons b zs => simpa using hsame (key b)
  | cons a ys ih =>
    cases zs with
    | nil => simpa using hsame (key a)
    | cons b zs =>
      -- both heads have the least key, so they have the same one and are the first with it
      have hmem {c : β} : c ∈ a :: ys ↔ c ∈ b :: zs := mem_iff ⟨hy, hsame⟩
      have hba : key b ≤ key a := by
        rcases List.mem_cons.mp (hmem.mp List.mem_cons_self) with rfl | ha
        · exact Nat.le_refl _
        · exact List.rel_of_pairwise_cons hz ha
      have hab : key a ≤ key b := by
        rcases List.mem_cons.mp (hmem.mpr List.mem_cons_self) with rfl | hb
        · exact Nat.le_refl _
        · exact List.rel_of_pairwise_cons hy hb
      have hkey : key a = key b := Nat.le_antisymm hab hba
      obtain rfl : a = b := by
        have hheads := hsame (key a)
        rw [List.filter_cons_of_pos (by simp), List.filter_cons_of_pos (by simp [hkey])] at hheads
        exact (List.cons.inj hheads).1
      refine congrArg (a :: ·) (ih hy.of_cons hz.of_cons fun k => ?_)
      have hk := hsame k
      by_cases hak : key a = k
      · rw [List.filter_cons_of_pos (by simp [hak]), List.filter_cons_of_pos (by simp [hak])] at hk
        exact (List.cons.inj hk).2
      · rwa [List.filter_cons_of_neg (by simp [hak]), List.filter_cons_of_neg (by simp [hak])] at hk

lemma unique (hy : StablySorted key xs ys) (hz : StablySorted key xs zs) : ys = zs :=
  eq_of_filters hy.ordered hz.ordered fun k => (hy.stable k).trans (hz.stable k).symm

lemma map (h : StablySorted key xs ys) (f : β → γ) {key' : γ → ℕ} (hkey : ∀ a, key' (f a) = key a) :
    StablySorted key' (xs.map f) (ys.map f) := by
  refine ⟨List.pairwise_map.mpr (h.ordered.imp fun {a b} hab => ?_), fun k => ?_⟩
  · rw [hkey, hkey]
    exact hab
  · simp only [List.filter_map, Function.comp_def, hkey, h.stable]

lemma filter (h : StablySorted key xs ys) (p : β → Bool) :
    StablySorted key (xs.filter p) (ys.filter p) := by
  refine ⟨h.ordered.filter p, fun k => ?_⟩
  rw [List.filter_comm, h.stable, List.filter_comm]

lemma of_ordered (h : xs.Pairwise fun a b => key a ≤ key b) : StablySorted key xs xs :=
  ⟨h, fun _ => rfl⟩

end StablySorted

lemma insertFinding_ordered (f : Finding) {fs : List Finding}
    (h : fs.Pairwise fun a b => a.span.start ≤ b.span.start) :
    (insertFinding f fs).Pairwise fun a b => a.span.start ≤ b.span.start := by
  fun_induction insertFinding f fs with
  | case1 => exact List.pairwise_singleton _ _
  | case2 g gs hle =>
    refine List.pairwise_cons.mpr ⟨fun a ha => ?_, h⟩
    rcases List.mem_cons.mp ha with rfl | ha
    · exact hle
    · exact Nat.le_trans hle (List.rel_of_pairwise_cons h ha)
  | case3 g gs hgt ih =>
    refine List.pairwise_cons.mpr ⟨fun a ha => ?_, ih h.of_cons⟩
    rcases List.mem_cons.mp ((insertFinding_perm f gs).mem_iff.mp ha) with rfl | ha
    · exact Nat.le_of_lt (Nat.lt_of_not_le hgt)
    · exact List.rel_of_pairwise_cons h ha

lemma insertFinding_stable (f : Finding) (fs : List Finding) (k : ℕ) :
    (insertFinding f fs).filter (fun a => a.span.start = k) =
      (f :: fs).filter fun a => a.span.start = k := by
  fun_induction insertFinding f fs with
  | case1 => rfl
  | case2 g gs hle => rfl
  | case3 g gs hgt ih =>
    rw [List.filter_cons, ih]
    by_cases hg : g.span.start = k
    · have hf : f.span.start ≠ k := by omega
      simp [hg, hf]
    · simp [List.filter_cons, hg]

/-- **Findings are sorted stably** by where they start. -/
theorem sortFindings_stablySorted (fs : List Finding) :
    StablySorted (fun f => f.span.start) fs (sortFindings fs) := by
  induction fs with
  | nil => exact ⟨.nil, fun _ => rfl⟩
  | cons f fs ih =>
    refine ⟨insertFinding_ordered f ih.ordered, fun k => ?_⟩
    change (insertFinding f (sortFindings fs)).filter _ = _
    rw [insertFinding_stable, List.filter_cons, List.filter_cons, ih.stable]

lemma sortFindings_filter (p : Finding → Bool) (fs : List Finding) :
    sortFindings (fs.filter p) = (sortFindings fs).filter p :=
  (sortFindings_stablySorted _).unique ((sortFindings_stablySorted fs).filter p)

/-! ### What is open at the end -/

/-- The problems of the frames that are open at the end of the text, innermost first. A block that
is attached closes the rule below it, so that is not reported. -/
def openFindings : List Frame → List Finding
  | [] => []
  | .block t bracket true :: _ :: stack => ⟨.unclosedBlock bracket, t.span⟩ :: openFindings stack
  | frame :: stack => frame.unclosed?.toList ++ openFindings stack

lemma unwind_findings {stack : List Frame} {b c : ComponentBuilder} {fs : List Finding}
    (h : unwind stack b = .ok (c, fs)) : fs = openFindings stack := by
  fun_induction unwind stack b generalizing c fs with
  | case1 b =>
    cases h
    rfl
  | case2 l stack b ih =>
    obtain ⟨p, -, h⟩ := exists_of_bind_eq_ok h
    exact ih p.2 h
  | case3 t stack b ih | case5 t stack b ih =>
    obtain ⟨p, -, h⟩ := exists_of_bind_eq_ok h
    obtain ⟨q, hrest, h⟩ := exists_of_bind_eq_ok h
    cases h
    rw [ih p.2 hrest]
    rfl
  | case4 t stack b ih | case6 t bracket rule stack b ih =>
    obtain ⟨d, -, h⟩ := exists_of_bind_eq_ok h
    obtain ⟨q, hrest, h⟩ := exists_of_bind_eq_ok h
    cases h
    rw [ih d hrest]
    rfl
  | case7 t bracket attached stack b hother ih =>
    obtain ⟨d, -, h⟩ := exists_of_bind_eq_ok h
    obtain ⟨q, hrest, h⟩ := exists_of_bind_eq_ok h
    cases h
    rw [ih d hrest, openFindings]
    · rfl
    · intro u c rule rest hframe hstack
      cases hframe
      exact hother rule rest hstack rfl

/-! ### Which tokens open frames -/

/-- The frame was opened by the token, and its problem is told there. -/
def Frame.OpenedBy (t : Token) (f : Frame) : Prop := ∀ found ∈ f.unclosed?, found.span = t.span

namespace Machine

variable {m n : Machine} {t : Token}

/-- Every frame was there before or was opened by the token. -/
def Opens (t : Token) (m n : Machine) : Prop := ∀ f ∈ n.stack, f ∈ m.stack ∨ f.OpenedBy t

lemma Opens.of_suffix (h : n.stack <:+ m.stack) : Opens t m n := fun _ hf => .inl (h.mem hf)

lemma Opens.trans {o : Machine} (h : Opens t m n) (h' : Opens t n o) : Opens t m o := by
  intro f hf
  rcases h' f hf with hf | hf
  · exact h f hf
  · exact .inr hf

lemma opens_push {f : Frame} {kind : ComponentKind} {location : ℕ}
    (h : m.push f kind location = .ok n) (hf : f.OpenedBy t) : Opens t m n := by
  intro g hg
  rw [push_stack h] at hg
  rcases List.mem_cons.mp hg with rfl | hg
  · exact .inr hf
  · exact .inl hg

lemma opens_pop (h : m.pop = .ok n) : Opens t m n := by
  obtain ⟨p, -, h⟩ := exists_of_bind_eq_ok h
  cases h
  exact .of_suffix (List.tail_suffix _)

lemma opens_popBlock {attached : Bool} (h : m.popBlock attached = .ok n) : Opens t m n := by
  obtain ⟨b, -, h⟩ := exists_of_bind_eq_ok h
  cases h
  exact .of_suffix (List.drop_suffix _ _)

lemma opens_value (h : m.value t = .ok n) : Opens t m n := by
  unfold value at h
  split at h
  · exact opens_push h (by rintro _ ⟨⟩; rfl)
  · split_ifs at h with hf
    · exact opens_push h (by rintro _ ⟨⟩; rfl)
    · split at h
      · obtain ⟨p, -, h⟩ := exists_of_bind_eq_ok h
        cases h
        exact .of_suffix (List.suffix_refl _)
      · cases h

lemma opens_preludeValue (h : m.preludeValue t = .ok n) : Opens t m n := by
  unfold preludeValue at h
  split_ifs at h with hb
  · exact opens_push h (by rintro _ ⟨⟩; rfl)
  · exact opens_value h

/-- **One token** opens no frames but its own. -/
lemma opens_feed (h : m.feed t = .ok n) : Opens t m n := by
  unfold feed at h
  split at h
  · cases h
    exact .of_suffix (List.suffix_refl _)
  · split_ifs at h with hi ha
    · cases h
      exact .of_suffix (List.suffix_refl _)
    · exact opens_push h (by rintro _ ⟨⟩; rfl)
    · obtain ⟨o, hpush, h⟩ := exists_of_bind_eq_ok h
      have hopens : Opens t m o := opens_push hpush (by rintro _ ⟨⟩; rfl)
      exact hopens.trans (opens_preludeValue h)
  · split_ifs at h
    · exact opens_pop h
    · exact opens_preludeValue h
  · exact opens_preludeValue h
  · split_ifs at h
    · exact opens_popBlock h
    · exact opens_value h
  · split_ifs at h
    · exact opens_pop h
    · exact opens_value h

/-- **A run** opens no frames but those of its tokens. -/
lemma opens_run {ts : List Token} (h : m.run ts = .ok n) :
    ∀ f ∈ n.stack, f ∈ m.stack ∨ ∃ t ∈ ts, f.OpenedBy t := by
  induction ts generalizing m with
  | nil =>
    cases h
    exact fun f hf => .inl hf
  | cons t ts ih =>
    obtain ⟨o, hfeed, h⟩ := exists_of_bind_eq_ok h
    intro f hf
    rcases ih h f hf with hf | ⟨u, hu, hf⟩
    · rcases opens_feed hfeed f hf with hf | hf
      · exact .inl hf
      · exact .inr ⟨t, List.mem_cons_self, hf⟩
    · exact .inr ⟨u, List.mem_cons_of_mem t hu, hf⟩

end Machine

lemma exists_frame_of_mem {stack : List Frame} {found : Finding} (h : found ∈ openFindings stack) :
    ∃ f ∈ stack, found ∈ f.unclosed? := by
  fun_induction openFindings stack with
  | case1 => simp at h
  | case2 t bracket rule stack ih =>
    rcases List.mem_cons.mp h with rfl | h
    · exact ⟨_, List.mem_cons_self, rfl⟩
    · obtain ⟨f, hf, hfound⟩ := ih h
      exact ⟨f, List.mem_cons_of_mem _ (List.mem_cons_of_mem _ hf), hfound⟩
  | case3 frame stack hother ih =>
    rcases List.mem_append.mp h with h | h
    · exact ⟨frame, List.mem_cons_self, Option.mem_toList.mp h⟩
    · obtain ⟨f, hf, hfound⟩ := ih h
      exact ⟨f, List.mem_cons_of_mem _ hf, hfound⟩

/-! ### The straight pass -/

namespace Lexer

variable (l : Lexer)

lemma errorsToEnd_after (n : ℕ) : (l.after n).errorsToEnd = l.errorsToEnd := by
  induction n with
  | zero => rfl
  | succ n ih => exact (errorsToEnd_next (l.after n)).trans ih

lemma errors_after {n : ℕ} (hn : l.source.tokens.length ≤ n) :
    (l.after n).errors = l.errors ++ l.source.lexErrors := by
  have heof := l.nth_tokens_length_eof
  have hend : (l.after n).source.text.length ≤ (l.after n).source.location := by
    rw [after_of_eof heof hn, after_text]
    exact (nth_eof_iff _).mp heof
  have herrors := l.errorsToEnd_after n
  rw [errorsToEnd, Source.lexErrors_of_end hend, List.append_nil] at herrors
  exact herrors

end Lexer

/-! ### Diagnostics -/

/-- What the diagnostics of a parse tell: `stack` is open when the tokens have run out, and
`lexical` are the problems of single tokens. -/
structure Parse.Tells (p : Parse) (s : Source) (list : ListKind) (stack : List Frame)
    (lexical : List Finding) : Prop where
  opened : (Machine.start list s.location >>= fun m => m.run s.material).map Machine.stack =
    .ok stack
  /-- What is open is reported in this order once the end of the text is reached. -/
  reported : ∀ n, 4 * (s.text.length - s.location) + 3 ≤ n →
    (Reader.after s list n).map Reader.findings = .ok (openFindings stack)
  /-- There is one such problem for each error that a straight pass meets, in their order. -/
  errors : ∀ n, s.tokens.length ≤ n →
    ((Lexer.ofSource s).after n).errors.mapM s.lexicalFinding = .ok lexical
  /-- The diagnostics are the one list that has all of them sorted stably by their starts. -/
  sorted : ∀ ds, StablySorted (fun d => d.span.start)
    ((openFindings stack ++ lexical).map Finding.diagnostic) ds ↔ ds = p.diagnostics
  /-- Each lexical error is told just once, and no two at the same place. -/
  once : (p.findings.filter fun f => !f.isStructural) = lexical ∧
    lexical.Pairwise fun f g => f.span.start < g.span.start
  /-- A diagnostic is about a token. -/
  spans : ∀ d ∈ p.diagnostics, ∃ t ∈ s.tokens, d.span = t.span

namespace Source

variable {s : Source} {list : ListKind} {p : Parse}

/-- How a parse comes about: what is open at the end, and then the problems in order. -/
lemma exists_stack_of_parse (h : s.parse list = .ok p) : ∃ stack : List Frame,
    (Machine.start list s.location >>= fun m => m.run s.material).map Machine.stack = .ok stack ∧
      (∃ b, s.completed list = .ok (b, openFindings stack)) ∧
      p.findings = sortFindings (openFindings stack ++ s.tokens.filterMap Token.finding?) ∧
      ∀ f ∈ stack, f = .ruleList list ∨ ∃ t ∈ s.tokens, f.OpenedBy t := by
  obtain ⟨m, hstart, h⟩ := exists_of_bind_eq_ok h
  obtain ⟨n, hrun, h⟩ := exists_of_bind_eq_ok h
  obtain ⟨⟨b, structural⟩, hunwind, h⟩ := exists_of_bind_eq_ok h
  obtain ⟨flat, -, h⟩ := exists_of_bind_eq_ok h
  obtain ⟨tree, -, h⟩ := exists_of_bind_eq_ok h
  cases h
  have hrun : m.run s.material = .ok n := hrun
  have hfindings := unwind_findings hunwind
  refine ⟨n.stack, ?_, ⟨b, ?_⟩, ?_, ?_⟩
  · rw [hstart, ok_bind, hrun]
    rfl
  · rw [Machine.start_eq_ofLevels] at hstart
    rw [completed, Except.ok.inj hstart, Machine.complete, hrun, ok_bind, hunwind, hfindings]
  · rw [hfindings]
  · intro f hf
    rcases Machine.opens_run hrun f hf with hf | ⟨t, ht, hf⟩
    · rw [Machine.push_stack hstart] at hf
      exact .inl (List.mem_singleton.mp hf)
    · exact .inr ⟨t, (List.mem_filter.mp ht).1, hf⟩

lemma pairwise_lexical (s : Source) :
    (s.tokens.filterMap Token.finding?).Pairwise fun f g => f.span.start < g.span.start := by
  have hstarts : (s.tokens.filterMap Token.finding?).map (fun f => f.span.start) =
      s.lexErrors.map LexError.location := by
    rw [lexErrors, List.map_filterMap, List.map_filterMap]
    congr 1
    ext t : 1
    unfold Token.finding? Token.lexError?
    cases t.error <;> rfl
  have hlocations := List.pairwise_map.mpr s.pairwise_lexErrors
  rw [← hstarts, List.pairwise_map] at hlocations
  exact hlocations

lemma filter_not_structural (stack : List Frame) (ts : List Token) :
    ((openFindings stack ++ ts.filterMap Token.finding?).filter fun f => !f.isStructural) =
      ts.filterMap Token.finding? := by
  have hopen : ((openFindings stack).filter fun f => !f.isStructural) = [] := by
    rw [List.filter_eq_nil_iff]
    intro found h
    obtain ⟨f, -, hf⟩ := exists_frame_of_mem h
    cases f <;> cases hf <;> exact Bool.false_ne_true
  have hlexical : ((ts.filterMap Token.finding?).filter fun f => !f.isStructural) =
      ts.filterMap Token.finding? := by
    rw [List.filter_eq_self]
    intro found h
    obtain ⟨t, -, ht⟩ := List.mem_filterMap.mp h
    obtain ⟨k, -, rfl⟩ := Option.map_eq_some_iff.mp ht
    rfl
  rw [List.filter_append, hopen, hlexical, List.nil_append]

lemma exists_token_of_mem {stack : List Frame} {found : Finding}
    (hstack : ∀ f ∈ stack, f = .ruleList list ∨ ∃ t ∈ s.tokens, f.OpenedBy t)
    (h : found ∈ openFindings stack ++ s.tokens.filterMap Token.finding?) :
    ∃ t ∈ s.tokens, found.span = t.span := by
  rcases List.mem_append.mp h with h | h
  · obtain ⟨f, hf, hfound⟩ := exists_frame_of_mem h
    rcases hstack f hf with rfl | ⟨t, ht, hopened⟩
    · cases hfound
    · exact ⟨t, ht, hopened found hfound⟩
  · obtain ⟨t, ht, hfound⟩ := List.mem_filterMap.mp h
    obtain ⟨k, -, rfl⟩ := Option.map_eq_some_iff.mp hfound
    exact ⟨t, ht, rfl⟩

lemma exists_token_of_mem_findings (h : s.parse list = .ok p) {found : Finding}
    (hfound : found ∈ p.findings) : ∃ t ∈ s.tokens, found.span = t.span := by
  obtain ⟨stack, -, -, hfindings, hstack⟩ := exists_stack_of_parse h
  rw [hfindings, (sortFindings_perm _).mem_iff] at hfound
  exact exists_token_of_mem hstack hfound

lemma findings_after {b : ComponentBuilder} {fs : List Finding}
    (hcompleted : s.completed list = .ok (b, fs)) (h : s.parse list = .ok p) {n : ℕ}
    (hn : 4 * (s.text.length - s.location) + 3 ≤ n) :
    (Reader.after s list n).map Reader.findings = .ok fs := by
  rcases Reader.done_after s list hn with ⟨-, hfail⟩ | ⟨r, hr, hreads, hend, tree, -, hmachine⟩
  · rw [h] at hfail
    cases hfail
  · have hresult := hreads.result
    rw [material_of_end (by rw [hreads.text]; exact hend), hmachine, hcompleted] at hresult
    have hfindings : r.findings ++ [] = fs := (Prod.mk.inj (Except.ok.inj hresult)).2
    rw [List.append_nil] at hfindings
    rw [hr, ← hfindings]
    rfl

/-- **A parse tells its problems exactly.** -/
theorem exists_tells (h : s.parse list = .ok p) :
    ∃ stack lexical, p.Tells s list stack lexical := by
  obtain ⟨stack, hopened, ⟨b, hcompleted⟩, hfindings, hstack⟩ := exists_stack_of_parse h
  have hsorted := sortFindings_stablySorted
    (openFindings stack ++ s.tokens.filterMap Token.finding?)
  rw [← hfindings] at hsorted
  have hdiagnostics : StablySorted (fun d => d.span.start) _ p.diagnostics :=
    hsorted.map Finding.diagnostic fun _ => rfl
  refine ⟨stack, s.tokens.filterMap Token.finding?, hopened, ?_, ?_, ?_, ⟨?_, s.pairwise_lexical⟩,
    ?_⟩
  · intro n hn
    exact findings_after hcompleted h hn
  · intro n hn
    rw [Lexer.errors_after _ hn]
    exact mapM_lexicalFinding fun t ht => standsIn_of_mem_tokens ht
  · intro ds
    constructor
    · intro hds
      exact hds.unique hdiagnostics
    · rintro rfl
      exact hdiagnostics
  · have hlexical := hsorted.filter fun f => !f.isStructural
    rw [filter_not_structural] at hlexical
    exact hlexical.unique (.of_ordered (s.pairwise_lexical.imp Nat.le_of_lt))
  · intro d hd
    obtain ⟨found, hfound, rfl⟩ := List.mem_map.mp hd
    exact exists_token_of_mem hstack (hsorted.mem_iff.mp hfound)

/-- Reading turn by turn comes to the same parse. -/
lemma read_eq_parse (s : Source) (list : ListKind) :
    Reader.read s list = (s.parse list).mapError .tree := by
  unfold Reader.read
  rcases Reader.closed_after s list (Nat.le_refl _) with ⟨hr, hfail⟩ | ⟨r, hr, -, p, hp, hparse⟩
  · rw [hr, hfail]
    rfl
  · rw [hr, hparse, ok_bind, hp]
    rfl

/-- **Diagnostics are exact**, whatever the text, the place to start at and the kind of list. They
are those of reading turn by turn, which meets some errors twice. -/
theorem diagnostics_exact (s : Source) (list : ListKind) :
    Reader.read s list = (s.parse list).mapError .tree ∧
      match s.parse list with
      | .ok p => ∃ stack lexical, p.Tells s list stack lexical
      | .error e => e = .overflow componentCapacity ∧
          componentCapacity < s.text.length - s.location + 2 := by
  refine ⟨s.read_eq_parse list, ?_⟩
  rcases h : s.parse list with e | p
  · have hwritten := s.written_sheet_le list
    rw [parse_eq_reserve, reserve] at h
    split_ifs at h with hroom
    cases h
    exact ⟨rfl, by omega⟩
  · exact exists_tells h

end Source

end Stylesheet
