import Stylesheet.Proofs.Restart

/-!
A qualified rule that is dropped leaves no trace. Only the last rule of a text can be dropped, and
where it starts nothing is open: every rule before it is finished, and a finished rule is consumed
alike whatever follows it. Neither does any token before it depend on what follows. So the text up
to the rule has the same tree, and those of the problems that start there.
-/

namespace Stylesheet

open Rose

/-! ### Finished components -/

/-- Something is made with nothing left open in it, and the tokens `more` are left over. -/
def Consumed.Leaves {α : Type} {ts : List Token} (x : Consumed α ts) (made : α)
    (more : List Token) : Prop :=
  x.made = made ∧ x.findings = [] ∧ x.rest = more

/-- If nothing is left open in them, values are consumed alike whatever follows them. -/
lemma leaves_consume :
    (∀ t ts, (consumeValue t ts).findings = [] →
      ∃ run, ts = run ++ (consumeValue t ts).rest ∧
        ∀ more, (consumeValue t (run ++ more)).Leaves (consumeValue t ts).made more) ∧
      ∀ closer unclosed ts, (consumeValues closer unclosed ts).findings = [] →
        ∃ run c, ts = run ++ c :: (consumeValues closer unclosed ts).rest ∧ c.kind = closer ∧
          ∀ more, (consumeValues closer unclosed (run ++ c :: more)).Leaves
            (consumeValues closer unclosed ts).made more := by
  refine consume_induction ?_ ?_ ?_ ?_ ?_ ?_
  · intro t ts ho hf _
    refine ⟨[], by rw [consumeValue_leaf ho hf]; rfl, fun more => ?_⟩
    rw [consumeValue_leaf ho hf, consumeValue_leaf ho hf]
    exact ⟨rfl, rfl, rfl⟩
  · intro t ts bracket ho ih hnone
    rw [consumeValue_opener ho, consumeBlock] at hnone ⊢
    obtain ⟨run, c, hsplit, -, hleaves⟩ := ih hnone
    refine ⟨run ++ [c], by simpa using hsplit, fun more => ?_⟩
    obtain ⟨hmade, hnone, hrest⟩ := hleaves more
    rw [consumeValue_opener ho, consumeBlock, List.append_assoc, List.singleton_append]
    exact ⟨congrArg (Rose.node _) hmade, hnone, hrest⟩
  · intro t ts hf ih hnone
    rw [consumeValue_function hf, consumeFunction] at hnone ⊢
    obtain ⟨run, c, hsplit, -, hleaves⟩ := ih hnone
    refine ⟨run ++ [c], by simpa using hsplit, fun more => ?_⟩
    obtain ⟨hmade, hnone, hrest⟩ := hleaves more
    rw [consumeValue_function hf, consumeFunction, List.append_assoc, List.singleton_append]
    exact ⟨congrArg (Rose.node _) hmade, hnone, hrest⟩
  · intro closer unclosed hnone
    simp [consumeValues_nil] at hnone
  · intro closer unclosed t ts hc _
    refine ⟨[], t, by rw [consumeValues_close hc]; rfl, hc, fun more => ?_⟩
    rw [List.nil_append, consumeValues_close hc, consumeValues_close hc]
    exact ⟨rfl, rfl, rfl⟩
  · intro closer unclosed t ts hc ihv ihw hnone
    rw [consumeValues_cons hc] at hnone ⊢
    obtain ⟨hvalue, hvalues⟩ := List.append_eq_nil_iff.mp hnone
    obtain ⟨run, hsplit, hleaves⟩ := ihv hvalue
    obtain ⟨body, c, hbody, hc', hmore⟩ := ihw hvalues
    refine ⟨t :: run ++ body, c, ?_, hc', fun more => ?_⟩
    · rw [List.append_assoc, ← hbody, List.cons_append, ← hsplit]
    · obtain ⟨hmade, hnone, hrest⟩ := hleaves (body ++ c :: more)
      obtain ⟨hmades, hnones, hrests⟩ := hmore more
      rw [List.append_assoc, List.cons_append, consumeValues_cons hc]
      simp only [Consumed.Leaves, hmade, hnone, List.nil_append]
      rw [hrest]
      exact ⟨congrArg _ hmades, hnones, hrests⟩

lemma leaves_prelude {semicolonEnds : Bool} {ts : List Token}
    (hnone : (consumePrelude semicolonEnds ts).findings = [])
    (hend : (consumePrelude semicolonEnds ts).made.ending ≠ .endOfText) :
    ∃ run c, ts = run ++ c :: (consumePrelude semicolonEnds ts).rest ∧
      ((consumePrelude semicolonEnds ts).made.ending = .semicolon → c.kind = .semicolon) ∧
      ∀ more, (consumePrelude semicolonEnds (run ++ c :: more)).Leaves
        (consumePrelude semicolonEnds ts).made more := by
  fun_induction consumePrelude semicolonEnds ts with
  | case1 => exact absurd rfl hend
  | case2 t ts hs =>
    refine ⟨[], t, rfl, fun _ => hs.2, fun more => ?_⟩
    rw [List.nil_append, consumePrelude, if_pos hs]
    exact ⟨rfl, rfl, rfl⟩
  | case3 t ts hs hb =>
    refine ⟨[], t, rfl, fun h => (by cases h), fun more => ?_⟩
    rw [List.nil_append, consumePrelude, if_neg hs, if_pos hb]
    exact ⟨rfl, rfl, rfl⟩
  | case4 t ts hs hb value more ih =>
    obtain ⟨hvalue, hmore⟩ := List.append_eq_nil_iff.mp hnone
    obtain ⟨run, hsplit, hleaves⟩ := leaves_consume.1 t ts hvalue
    obtain ⟨body, c, hbody, hc, hleft⟩ := ih hmore hend
    refine ⟨t :: run ++ body, c, ?_, hc, fun behind => ?_⟩
    · have hvalues : value.rest = body ++ c :: more.rest := hbody
      rw [List.append_assoc, ← hvalues, List.cons_append, ← hsplit]
    · obtain ⟨hmade, hnone, hrest⟩ := hleaves (body ++ c :: behind)
      obtain ⟨hmades, hnones, hrests⟩ := hleft behind
      rw [List.append_assoc, List.cons_append, consumePrelude, if_neg hs, if_neg hb]
      simp only [Consumed.Leaves, hmade, hnone, List.nil_append]
      rw [hrest]
      refine ⟨?_, hnones, hrests⟩
      rw [hmades]

/-- The tokens end with one that ends a rule. -/
def EndsRule (run : List Token) : Prop :=
  ∃ body c, run = body ++ [c] ∧ (c.kind = .semicolon ∨ c.kind = .rightBrace)

lemma leaves_parts (semicolonEnds : Bool) (unfinished : Finding) {ts : List Token}
    (hnone : (consumeParts semicolonEnds unfinished ts).findings = []) :
    ∃ run, ts = run ++ (consumeParts semicolonEnds unfinished ts).rest ∧ EndsRule run ∧
      ∀ more, (consumeParts semicolonEnds unfinished (run ++ more)).Leaves
        (consumeParts semicolonEnds unfinished ts).made more := by
  have hprelude := @leaves_prelude semicolonEnds ts
  rw [consumeParts] at hnone ⊢
  rcases hend : (consumePrelude semicolonEnds ts).made.ending with _ | opening | _
  all_goals simp only [hend] at hnone hprelude ⊢
  · obtain ⟨run, c, hsplit, hc, hleaves⟩ := hprelude hnone (by simp)
    refine ⟨run ++ [c], by simpa using hsplit, ⟨run, c, rfl, .inl (hc trivial)⟩, fun more => ?_⟩
    obtain ⟨hmade, hnone, hrest⟩ := hleaves more
    rw [List.append_assoc, List.singleton_append, consumeParts]
    simp only [hmade, hend]
    exact ⟨rfl, hnone, hrest⟩
  · obtain ⟨hvalues, hblock⟩ := List.append_eq_nil_iff.mp hnone
    obtain ⟨run, c, hsplit, -, hleaves⟩ := hprelude hvalues (by simp)
    rw [consumeBlock] at hblock ⊢
    obtain ⟨body, d, hbody, hd, hinner⟩ := leaves_consume.2 _ _ _ hblock
    refine ⟨run ++ c :: (body ++ [d]), ?_, ⟨run ++ c :: body, d, by simp, .inr hd⟩, fun more => ?_⟩
    · simpa [← hbody] using hsplit
    · have happend : run ++ c :: (body ++ [d]) ++ more = run ++ c :: (body ++ d :: more) := by simp
      obtain ⟨hmade, hnone, hrest⟩ := hleaves (body ++ d :: more)
      obtain ⟨hmades, hnones, hrests⟩ := hinner more
      rw [happend, consumeParts]
      simp only [hmade, hend, hnone, List.nil_append, Consumed.Leaves]
      rw [hrest, consumeBlock]
      simp only [hmades]
      exact ⟨trivial, hnones, hrests⟩
  · simp at hnone

/-! ### The rules before the one that is dropped -/

/-- Rules in a row: they are consumed alike, whatever follows them. -/
def Sheet.Heads (list : ListKind) (run : List Token) (rules : List (Rose Component)) : Prop :=
  ∀ more, consumeRules list (run ++ more) = ⟨rules ++ (consumeRules list more).rules,
    (consumeRules list more).dropped, (consumeRules list more).findings⟩

lemma heads_of_ignored {list : ListKind} {t : Token} (h : list.ignores t.kind) :
    Sheet.Heads list [t] [] := by
  intro more
  rw [List.singleton_append, consumeRules, if_pos h]
  rfl

variable {list : ListKind} {t : Token} {ts : List Token}

lemma heads_of_atRule (hi : ¬ list.ignores t.kind) (ha : t.kind = .atKeyword)
    (hnone : (consumeAtRule t ts).findings = []) :
    ∃ run, t :: ts = run ++ (consumeAtRule t ts).rest ∧ EndsRule run ∧
      Sheet.Heads list run [(consumeAtRule t ts).made] := by
  obtain ⟨run, hsplit, ⟨body, c, rfl, hc⟩, hleaves⟩ :=
    leaves_parts true ⟨.unclosedAtRule, t.span⟩ hnone
  refine ⟨t :: (body ++ [c]), congrArg (t :: ·) hsplit, ⟨t :: body, c, rfl, hc⟩, fun more => ?_⟩
  obtain ⟨hmade, hfindings, hrest⟩ := hleaves more
  rw [List.cons_append, consumeRules, if_neg hi, if_pos ha]
  simp only [consumeAtRule, hmade, hfindings, List.nil_append]
  rw [hrest]
  rfl

lemma heads_of_qualifiedRule (hi : ¬ list.ignores t.kind) (ha : t.kind ≠ .atKeyword)
    (hblock : (consumeQualifiedRule t ts).made.block.isSome)
    (hnone : (consumeQualifiedRule t ts).findings = []) :
    ∃ run, t :: ts = run ++ (consumeQualifiedRule t ts).rest ∧ EndsRule run ∧
      Sheet.Heads list run [(consumeQualifiedRule t ts).made.tree .qualifiedRule t.start] := by
  obtain ⟨run, hsplit, hends, hleaves⟩ :=
    leaves_parts false ⟨.missingBlock, t.span⟩ hnone
  refine ⟨run, hsplit, hends, fun more => ?_⟩
  obtain ⟨hmade, hfindings, hrest⟩ := hleaves more
  obtain ⟨body, rfl⟩ : ∃ body, run = t :: body := by
    obtain ⟨front, c, rfl, -⟩ := hends
    rcases front with _ | ⟨u, front⟩
    · exact ⟨[], congrArg (· :: []) (List.cons.inj hsplit).1.symm⟩
    · exact ⟨front ++ [c], congrArg (· :: _) (List.cons.inj hsplit).1.symm⟩
  rw [List.cons_append] at hmade hfindings hrest ⊢
  rw [consumeRules, if_neg hi, if_neg ha]
  simp only [consumeQualifiedRule] at hblock ⊢
  simp only [hmade, hfindings, List.nil_append]
  rw [if_pos hblock, hrest]
  rfl

/-- No token that opens a function has only what the list ignores behind it. -/
def Settled (list : ListKind) (ts : List Token) : Prop :=
  ∀ xs u ys, ts = xs ++ u :: ys → (∀ y ∈ ys, list.ignores y.kind) → u.kind ≠ .function

lemma settled_nil (list : ListKind) : Settled list [] := by
  intro xs u ys h
  simp at h

lemma Settled.ignored (hs : Settled list ts) (hi : list.ignores t.kind) :
    Settled list ([t] ++ ts) := by
  intro xs u ys h hys
  rcases xs with _ | ⟨x, xs⟩
  · obtain ⟨rfl, -⟩ := List.cons.inj h
    intro hf
    rw [hf] at hi
    cases list <;> cases hi
  · exact hs xs u ys (List.cons.inj h).2 hys

lemma Settled.rule (hs : Settled list ts) {run : List Token} (hrun : EndsRule run) :
    Settled list (run ++ ts) := by
  intro xs u ys h hys
  obtain ⟨body, c, rfl, hc⟩ := hrun
  have hnot : ¬ list.ignores c.kind := by
    rcases hc with hc | hc <;> rw [hc] <;> cases list <;> exact Bool.false_ne_true
  rcases List.append_eq_append_iff.mp h with ⟨as, rfl, hts⟩ | ⟨cs, hbody, hcs⟩
  · exact hs as u ys hts hys
  · rcases cs with _ | ⟨d, ds⟩
    · exact hs [] u ys hcs.symm hys
    · obtain ⟨rfl, rfl⟩ := List.cons.inj hcs
      rcases List.eq_nil_or_concat ds with rfl | ⟨ds, e, rfl⟩
      · obtain ⟨-, hlast⟩ := List.append_inj' hbody rfl
        obtain rfl : c = u := List.singleton_inj.mp hlast
        rcases hc with hc | hc <;> rw [hc] <;> simp
      · rw [List.concat_eq_append, ← List.cons_append, ← List.append_assoc] at hbody
        obtain ⟨-, hlast⟩ := List.append_inj' hbody rfl
        obtain rfl : c = e := List.singleton_inj.mp hlast
        exact absurd (hys c (by simp)) hnot

/-! ### The rule that is dropped -/

/-- Whether a finding says that a qualified rule has no block. -/
def Finding.isMissingBlock (f : Finding) : Bool := f.problem = .missingBlock

lemma Finding.not_isMissingBlock {f : Finding} (h : f.isUnclosedValue) :
    f.isMissingBlock = false := by
  rcases f with ⟨_ | _ | _ | _ | _, span⟩ <;> first | rfl | cases h

lemma filter_isMissingBlock {fs : List Finding} (h : ∀ f ∈ fs, f.isMissingBlock = false) :
    fs.filter Finding.isMissingBlock = [] := by
  rw [List.filter_eq_nil_iff]
  intro f hf
  rw [h f hf]
  exact Bool.false_ne_true

lemma findings_of_no_block (h : (consumeQualifiedRule t ts).made.block = none) :
    (consumeQualifiedRule t ts).findings =
      (consumePrelude false (t :: ts)).findings ++ [⟨.missingBlock, t.span⟩] := by
  unfold consumeQualifiedRule consumeParts at h ⊢
  rcases hend : (consumePrelude false (t :: ts)).made.ending with _ | opening | _
  · exact absurd hend (ending_ne_semicolon _)
  · simp [hend] at h
  · simp only [hend]

lemma findings_of_block (h : (consumeQualifiedRule t ts).made.block.isSome) :
    ∀ f ∈ (consumeQualifiedRule t ts).findings, f.isUnclosedValue := by
  intro f hf
  have hprelude := unclosed_prelude false (t :: ts)
  unfold consumeQualifiedRule consumeParts at h hf
  rcases hend : (consumePrelude false (t :: ts)).made.ending with _ | opening | _
  all_goals simp only [hend] at h hf
  · cases h
  · rcases List.mem_append.mp hf with hf | hf
    · exact hprelude f hf
    · exact unclosed_block _ _ _ f hf
  · cases h

lemma findings_of_atRule : ∀ f ∈ (consumeAtRule t ts).findings, f.isMissingBlock = false := by
  intro f hf
  rcases unclosed_or_unfinished hf with hvalue | rfl
  · exact Finding.not_isMissingBlock hvalue
  · rfl

/-- Of the tokens, `first` and those behind it make a rule that is dropped, and those before it make
the rules that stay. -/
structure Drops (list : ListKind) (ts before : List Token) (first : Token) (rest : List Token) :
    Prop where
  split : ts = before ++ first :: rest
  start : ¬ list.ignores first.kind
  settled : Settled list before
  stays : consumeRules list before = ⟨(consumeRules list ts).rules, [], []⟩
  goes : consumeRules list (first :: rest) =
    ⟨[], (consumeRules list ts).dropped, (consumeRules list ts).findings⟩
  told : (consumeRules list ts).findings.filter Finding.isMissingBlock =
    [⟨.missingBlock, first.span⟩]

variable {before rest : List Token} {first : Token}

lemma Drops.behind (h : Drops list ts before first rest) {run : List Token}
    {rules : List (Rose Component)} (hrun : Sheet.Heads list run rules)
    (hsettled : Settled list (run ++ before)) :
    Drops list (run ++ ts) (run ++ before) first rest where
  split := by rw [h.split, List.append_assoc]
  start := h.start
  settled := hsettled
  stays := by rw [hrun before, hrun ts, h.stays]
  goes := by rw [hrun ts]; exact h.goes
  told := by rw [hrun ts]; exact h.told

/-- A rule with nothing open in it stays, and in one with something open the tokens run out. -/
lemma drops_of_rest {α : Type} {us : List Token} {rule : Consumed α us} (hwell : rule.EndsWell)
    {rules : List (Rose Component)} (hmissing : ∀ f ∈ rule.findings, f.isMissingBlock = false)
    (hheads : rule.findings = [] → ∃ run, ts = run ++ rule.rest ∧ EndsRule run ∧
      Sheet.Heads list run rules)
    (h : (consumeRules list rule.rest).findings.filter Finding.isMissingBlock = [] ∨
      ∃ before first rest, Drops list rule.rest before first rest) :
    (rule.findings ++ (consumeRules list rule.rest).findings).filter Finding.isMissingBlock = [] ∨
      ∃ before first rest, Drops list ts before first rest := by
  refine h.imp (fun hnone => ?_) ?_
  · rw [List.filter_append, filter_isMissingBlock hmissing, hnone, List.append_nil]
  · rintro ⟨before, first, rest, hdrops⟩
    have hmore : rule.rest ≠ [] := by
      rw [hdrops.split]
      exact List.append_ne_nil_of_right_ne_nil _ (List.cons_ne_nil _ _)
    obtain ⟨run, rfl, hends, hrun⟩ := hheads (hwell hmore)
    exact ⟨run ++ before, first, rest, hdrops.behind hrun (hdrops.settled.rule hends)⟩

lemma consumeRules_of_no_block (hi : ¬ list.ignores t.kind) (ha : t.kind ≠ .atKeyword)
    (hblock : (consumeQualifiedRule t ts).made.block = none) :
    consumeRules list (t :: ts) =
      ⟨[], [(consumeQualifiedRule t ts).made.tree .qualifiedRule t.start],
        (consumeQualifiedRule t ts).findings⟩ := by
  have hnil : consumeRules list [] = ⟨[], [], []⟩ := by rw [consumeRules]
  rw [consumeRules, if_neg hi, if_neg ha]
  simp only [hblock, rest_of_no_block hblock, hnil, List.append_nil]
  rfl

/-- **At most one rule is dropped**, and it is the last. -/
theorem drops_cases (list : ListKind) (ts : List Token) :
    (consumeRules list ts).findings.filter Finding.isMissingBlock = [] ∨
      ∃ before first rest, Drops list ts before first rest := by
  fun_induction consumeRules list ts with
  | case1 => exact .inl rfl
  | case2 t ts hi ih =>
    refine ih.imp id ?_
    rintro ⟨before, first, rest, h⟩
    exact ⟨[t] ++ before, first, rest, h.behind (heads_of_ignored hi) (h.settled.ignored hi)⟩
  | case3 t ts hi ha rule more ih =>
    have hwell : rule.EndsWell := endsWell_parts true _ ts
    exact drops_of_rest hwell findings_of_atRule (heads_of_atRule hi ha) ih
  | case4 t ts hi ha rule more tree hb ih =>
    have hmissing : ∀ f ∈ rule.findings, f.isMissingBlock = false := fun f hf =>
      Finding.not_isMissingBlock (findings_of_block hb f hf)
    exact drops_of_rest (endsWell_parts false _ (t :: ts)) hmissing
      (heads_of_qualifiedRule hi ha hb) ih
  | case5 t ts hi ha rule more tree hb ih =>
    have hblock : rule.made.block = none := by simpa using hb
    have hsheet := consumeRules_of_no_block hi ha hblock
    have hprelude : ∀ f ∈ (consumePrelude false (t :: ts)).findings, f.isMissingBlock = false :=
      fun f hf => Finding.not_isMissingBlock (unclosed_prelude false _ f hf)
    refine .inr ⟨[], t, ts, rfl, hi, settled_nil list, ?_, ?_, ?_⟩
    · rw [hsheet, consumeRules]
    · rw [hsheet]
    · rw [hsheet]
      simp only
      rw [findings_of_no_block hblock, List.filter_append, filter_isMissingBlock hprelude]
      rfl

/-! ### What a newline ends -/

open Stylesheet.Text

lemma exists_newline_of_badString {cs : List Char} (h : (lex cs).kind = .badString) :
    ∃ t, cs.drop (lex cs).size = '\n' :: t := by
  rcases cs with _ | ⟨c, r⟩
  · cases h
  have hnamed := Lexeme.named_kind (c :: r)
  obtain hlex | hlex | hlex | ⟨-, hlex⟩ | hother := lex_cases c r
  · simp [hlex] at h
  · have hdeclines := declines_behind_units (stringPiece?_advances c) r
    rw [← extent_eq_taken] at hdeclines
    change stringPiece? c (r.drop (extent (stringPieces c r))) = none at hdeclines
    rw [hlex] at h ⊢
    rcases hd : r.drop (extent (stringPieces c r)) with _ | ⟨d, t⟩
    · rw [Lexeme.string_of_nil hd] at h
      cases h
    · rw [Lexeme.string_of_cons hd] at h ⊢
      rw [hd, stringPiece?_eq_none_iff] at hdeclines
      split_ifs at h ⊢ with hquote
      obtain rfl := hdeclines.resolve_left hquote
      exact ⟨t, by rw [Nat.add_comm, List.drop_succ_cons, hd]⟩
  · simp [← hlex, h] at hnamed
  · simp [hlex, Lexeme.comments] at h
  · simp [h] at hother

namespace Source

variable {s : Source}

lemma next_whitespace {t : List Char} (h : s.rest.drop (lex s.rest).size = '\n' :: t) :
    s.next.token.kind = .whitespace := by
  rw [token_kind, next_rest, h]
  rfl

lemma whitespace_of_hangs {t : Token} (ht : t ∈ s.tokens) {e : ℕ} (hangs : s.Hangs e t) :
    (⟨s.text, e⟩ : Source).token.kind = .whitespace ∨ t.kind = .function ∧
      (t.stop = e ∨ ∃ b ∈ s.tokens, b.kind = .whitespace ∧ b.start = t.stop ∧ b.stop = e) := by
  obtain ⟨hinside, hthere⟩ := standsIn_of_mem_tokens ht
  have hnext : (⟨s.text, t.start⟩ : Source).next = ⟨s.text, t.stop⟩ := by
    rw [next, hthere]
  cases hangs with
  | string kind stop =>
    left
    rw [← hthere, token_kind] at kind
    obtain ⟨r, hnewline⟩ := exists_newline_of_badString kind
    rw [← stop, ← hnext]
    exact next_whitespace hnewline
  | escape kind value stop =>
    left
    rw [← hthere] at kind
    obtain ⟨r, hrest⟩ := exists_rest_of_escape (s := ⟨s.text, t.start⟩) hinside kind value
    rw [← stop, ← hnext]
    refine next_whitespace (t := r) ?_
    rw [hrest]
    rfl
  | url kind name value word stop => exact .inr ⟨kind, stop⟩

/-! ### The text before the rule -/

variable {list : ListKind} {before rest : List Token} {first : Token}

lemma first_mem_tokens (h : Drops list s.material before first rest) : first ∈ s.tokens := by
  have hmem : first ∈ s.material := by
    rw [h.split]
    simp
  exact (List.mem_filter.mp hmem).1

lemma before_eq (h : Drops list s.material before first rest) :
    before = (s.tokens.filter (·.start < first.start)).filter fun t => t.kind ≠ .comments := by
  have hfirst := first_mem_tokens h
  have hsplit := tokens_split (location_le_of_mem_tokens hfirst) (start_mem_starts hfirst)
  have hrest : (⟨s.text, first.start⟩ : Source).material = first :: rest :=
    material_of_suffix (h.split ▸ List.suffix_append _ _)
  have hmaterial : s.material =
      (s.tokens.filter (·.start < first.start)).filter (fun t => t.kind ≠ .comments) ++
        (⟨s.text, first.start⟩ : Source).material := by
    conv_lhs => rw [material, hsplit, List.filter_append]
    rfl
  rw [hrest] at hmaterial
  exact List.append_cancel_right (h.split.symm.trans hmaterial)

/-- **Where a rule is dropped**, the text may as well end. -/
lemma not_open_of_drops (h : Drops list s.material before first rest) : ¬ s.Open first.start := by
  rintro ⟨t, ht, hangs⟩
  have hfirst := first_mem_tokens h
  have hignores : ∀ kind, kind = .whitespace → list.ignores kind := by
    rintro _ rfl
    cases list <;> rfl
  rcases whitespace_of_hangs ht hangs with hblank | ⟨hfunction, hstop⟩
  · rw [(standsIn_of_mem_tokens hfirst).2] at hblank
    exact h.start (hignores _ hblank)
  · have hmem : t ∈ before := by
      have hlt : t.start < first.start := Nat.lt_of_lt_of_le (start_lt_stop ht) hangs.stop_le
      rw [before_eq h, List.mem_filter, List.mem_filter]
      exact ⟨⟨ht, decide_eq_true hlt⟩, by simp [hfunction]⟩
    obtain ⟨xs, ys, hsplit⟩ := List.append_of_mem hmem
    refine h.settled xs t ys hsplit (fun y hy => hignores _ ?_) hfunction
    -- nothing but white space lies between the function and the rule
    have hy' : y ∈ before := by
      rw [hsplit]
      exact List.mem_append_right _ (List.mem_cons_of_mem _ hy)
    have hpairwise : before.Pairwise fun t u => t.stop ≤ u.start := by
      rw [before_eq h]
      exact (s.pairwise_tokens.filter _).filter _
    rw [hsplit] at hpairwise
    have hbehind : t.stop ≤ y.start :=
      List.rel_of_pairwise_cons (List.pairwise_append.mp hpairwise).2.1 hy
    rw [before_eq h, List.mem_filter, List.mem_filter, decide_eq_true_iff] at hy'
    obtain ⟨⟨hyt, hlt⟩, -⟩ := hy'
    rcases hstop with hstop | ⟨b, hb, hkind, hstart, hstop⟩
    · omega
    · rw [eq_of_mem_tokens hyt hb (by omega) (by omega), hkind]

lemma le_start_of_drops (h : Drops list s.material before first rest) {p : Parse}
    (hp : s.parse list = .ok p) : ∀ f ∈ (s.sheet list).findings, first.start ≤ f.span.start := by
  intro f hf
  have hfirst := first_mem_tokens h
  have hmaterial : (⟨s.text, first.start⟩ : Source).material = first :: rest :=
    material_of_suffix (h.split ▸ List.suffix_append _ _)
  have hsheet : (⟨s.text, first.start⟩ : Source).sheet list =
      ⟨[], (s.sheet list).dropped, (s.sheet list).findings⟩ := by
    rw [sheet, hmaterial]
    exact h.goes
  have hroom : 1 + ((⟨s.text, first.start⟩ : Source).sheet list).written ≤ componentCapacity := by
    have hall := (parse_eq_ok_iff.mp hp).1
    rw [hsheet]
    unfold Sheet.written at hall ⊢
    simp only [sizes_nil]
    omega
  have hreported : f ∈ (⟨s.text, first.start⟩ : Source).problems list := by
    rw [problems, (sortFindings_perm _).mem_iff, hsheet]
    exact List.mem_append_left _ hf
  obtain ⟨t, ht, hspan⟩ :=
    exists_token_of_mem_findings (parse_eq_ok_iff.mpr ⟨hroom, rfl⟩) hreported
  have hinside : first.start ≤ s.text.length := Nat.le_of_lt (standsIn_of_mem_tokens hfirst).1
  rw [hspan]
  exact location_le_start (s := ⟨s.text, first.start⟩) hinside ht

lemma lexical_up_to (ts : List Token) (e : ℕ) :
    (ts.filter (·.start < e)).filterMap Token.finding? =
      (ts.filterMap Token.finding?).filter (·.span.start < e) := by
  rw [List.filterMap_filter, List.filter_filterMap]
  refine List.filterMap_congr fun t _ => ?_
  rw [Token.finding?]
  rcases t.error with _ | k
  · simp
  · by_cases hlt : t.span.start < e <;> simp [Option.filter, Token.start, hlt]

/-- **Without the rule** that is dropped, the text has the same tree and the problems before it. -/
lemma parse_without_rule (h : Drops list s.material before first rest) {p : Parse}
    (hp : s.parse list = .ok p) :
    ∃ q, (⟨s.text.take first.start, s.location⟩ : Source).parse list = .ok q ∧ q.tree = p.tree ∧
      q.findings = p.findings.filter (·.span.start < first.start) := by
  have hfirst := first_mem_tokens h
  have htokens : (⟨s.text.take first.start, s.location⟩ : Source).tokens =
      s.tokens.filter (·.start < first.start) := by
    have hcut := (tokens_splice_nil_iff (location_le_of_mem_tokens hfirst)
      (start_mem_starts hfirst)).mpr (not_open_of_drops h)
    rwa [splice, List.append_nil] at hcut
  have hsheet : (⟨s.text.take first.start, s.location⟩ : Source).sheet list =
      ⟨(s.sheet list).rules, [], []⟩ := by
    rw [sheet, material, htokens, ← before_eq h]
    exact h.stays
  obtain ⟨hroom, rfl⟩ := parse_eq_ok_iff.mp hp
  have hfits : 1 + ((⟨s.text.take first.start, s.location⟩ : Source).sheet list).written ≤
      componentCapacity := by
    rw [hsheet]
    unfold Sheet.written at hroom ⊢
    simp only [sizes_nil]
    omega
  refine ⟨_, parse_eq_ok_iff.mpr ⟨hfits, rfl⟩, ?_, ?_⟩
  · rw [hsheet]
    rfl
  · have hstructural : (s.sheet list).findings.filter (·.span.start < first.start) = [] := by
      rw [List.filter_eq_nil_iff]
      intro f hf
      have hle := le_start_of_drops h hp f hf
      simpa using hle
    simp only [problems, hsheet, htokens]
    rw [← sortFindings_filter, List.filter_append, hstructural, lexical_up_to]

end Source

lemma Finding.message_eq_iff (f : Finding) :
    f.diagnostic.message = "qualified rule has no block" ↔ f.problem = .missingBlock := by
  unfold diagnostic
  rcases f with ⟨error | bracket | _ | _ | _, span⟩
  case lexical => cases error <;> simp [Problem.message, LexErrorKind.message]
  case unclosedBlock => cases bracket <;> simp [Problem.message]
  all_goals simp [Problem.message]

namespace Source

/-- What is told of rules without a block is what recursion meets. -/
lemma dropped_cases {s : Source} {list : ListKind} {p : Parse} (hp : s.parse list = .ok p) :
    p.dropped = [] ∨ ∃ before first rest, Drops list s.material before first rest ∧
      p.dropped = [first.start] := by
  obtain ⟨-, rfl⟩ := parse_eq_ok_iff.mp hp
  have hlexical : ∀ f ∈ s.tokens.filterMap Token.finding?, f.isMissingBlock = false := by
    intro f hf
    obtain ⟨t, -, ht⟩ := List.mem_filterMap.mp hf
    obtain ⟨k, -, rfl⟩ := Option.map_eq_some_iff.mp ht
    rfl
  have htold : (s.problems list).filter Finding.isMissingBlock =
      sortFindings ((consumeRules list s.material).findings.filter Finding.isMissingBlock) := by
    rw [problems, ← sortFindings_filter, List.filter_append, filter_isMissingBlock hlexical,
      List.append_nil]
    rfl
  refine (drops_cases list s.material).imp (fun hnone => ?_) ?_
  · change ((s.problems list).filter Finding.isMissingBlock).map _ = _
    rw [htold, hnone]
    rfl
  · rintro ⟨before, first, rest, h⟩
    refine ⟨before, first, rest, h, ?_⟩
    change ((s.problems list).filter Finding.isMissingBlock).map _ = _
    rw [htold, h.told]
    rfl

/-- **A dropped rule leaves no trace**, whatever is open in it when the text ends. There is at most
one, and there the message is told; up to where it starts, the text has the same tree and just the
problems that are told there. Only a text too long for its tree to be counted in a word has no
tree. -/
theorem dropped_rule_leaves_no_trace (s : Source) (list : ListKind) :
    match s.parse list with
    | .ok p =>
      p.dropped = (p.diagnostics.filter fun d => d.message = "qualified rule has no block").map
          (·.span.start) ∧
        p.dropped.length ≤ 1 ∧
        ∀ e ∈ p.dropped, ∃ text q, s.slice 0 e = .ok text ∧
          (⟨text, s.location⟩ : Source).parse list = .ok q ∧ q.tree = p.tree ∧
          q.diagnostics = p.diagnostics.filter (·.span.start < e)
    | .error e => e = .overflow componentCapacity ∧
        componentCapacity < s.text.length - s.location + 2 := by
  rcases hp : s.parse list with e | p
  · exact overflow_of_parse hp
  · refine ⟨?_, ?_⟩
    · unfold Parse.dropped Parse.diagnostics
      rw [List.filter_map, List.map_map]
      simp only [Function.comp_def, Finding.message_eq_iff]
      rfl
    · rcases dropped_cases hp with hnone | ⟨before, first, rest, h, hone⟩
      · rw [hnone]
        exact ⟨Nat.zero_le 1, fun e he => by cases he⟩
      · rw [hone]
        refine ⟨Nat.le_refl 1, fun e he => ?_⟩
        obtain rfl : e = first.start := List.mem_singleton.mp he
        have hinside := (standsIn_of_mem_tokens (first_mem_tokens h)).1
        obtain ⟨q, hq, htree, hfindings⟩ := parse_without_rule h hp
        refine ⟨s.text.take first.start, q, ?_, hq, htree, ?_⟩
        · exact if_pos ⟨Nat.zero_le _, Nat.le_of_lt hinside⟩
        · unfold Parse.diagnostics
          rw [hfindings, List.filter_map]
          rfl

/-- A rule with a block and a function open in it, behind one that stays. -/
example : ((⟨['a', '\x7b', '\x7d', 'b', '[', 'f', '('], 0⟩ : Source).parse .topLevel).map
    Parse.dropped = .ok [3] := by decide

end Source

end Stylesheet
