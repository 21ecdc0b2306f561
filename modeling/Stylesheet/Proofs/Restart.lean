import Stylesheet.Proofs.Cutting
import Stylesheet.Proofs.Shape

/-!
Reading may start again where a rule starts. Nothing is open between two rules, so what comes before
a rule leaves no trace in what follows: a component that leaves tokens behind it has met no problem
of structure, and the slots of a tree count from where they are. From the first token of a rule on
the text therefore gives the rest of the tree and the problems that are found there.
-/

namespace Stylesheet

open Rose

/-- Problems of structure are met only where the tokens run out. -/
def Consumed.EndsWell {α : Type} {ts : List Token} (c : Consumed α ts) : Prop :=
  c.rest ≠ [] → c.findings = []

/-! ### What is behind a component -/

lemma endsWell_consume :
    (∀ t ts, (consumeValue t ts).EndsWell) ∧
      ∀ closer unclosed ts, (consumeValues closer unclosed ts).EndsWell := by
  refine consume_induction ?_ ?_ ?_ ?_ ?_ ?_
  · intro t ts ho hf _
    rw [consumeValue_leaf ho hf]
  · intro t ts bracket ho ih
    rw [consumeValue_opener ho, consumeBlock]
    exact ih
  · intro t ts hf ih
    rw [consumeValue_function hf, consumeFunction]
    exact ih
  · intro closer unclosed hrest
    rw [consumeValues_nil] at hrest
    exact absurd rfl hrest
  · intro closer unclosed t ts hc _
    rw [consumeValues_close hc]
  · intro closer unclosed t ts hc ihv ihw hrest
    rw [consumeValues_cons hc] at hrest ⊢
    have hlast := (consumeValues closer unclosed (consumeValue t ts).rest).last
    simp only [ihv (hlast.ne_nil hrest), ihw hrest, List.append_nil]

lemma endsWell_block (t : Token) (bracket : Bracket) (ts : List Token) :
    (consumeBlock t bracket ts).EndsWell := by
  rw [consumeBlock]
  exact endsWell_consume.2 _ _ ts

lemma endsWell_prelude (semicolonEnds : Bool) (ts : List Token) :
    (consumePrelude semicolonEnds ts).EndsWell := by
  fun_induction consumePrelude semicolonEnds ts with
  | case1 => exact fun _ => rfl
  | case2 => exact fun _ => rfl
  | case3 => exact fun _ => rfl
  | case4 t ts _ _ value more ih =>
    intro hrest
    have hbefore : value.rest ≠ [] := (more.last.trans (List.tail_suffix _)).ne_nil hrest
    have hvalue : value.findings = [] := endsWell_consume.1 t ts hbefore
    have hmore : more.findings = [] := ih hrest
    simp only [hvalue, hmore, List.append_nil]

lemma endsWell_parts (semicolonEnds : Bool) (unfinished : Finding) (ts : List Token) :
    (consumeParts semicolonEnds unfinished ts).EndsWell := by
  have hprelude := endsWell_prelude semicolonEnds ts
  rw [consumeParts]
  rcases hend : (consumePrelude semicolonEnds ts).made.ending with _ | opening | _
  · exact hprelude
  · intro hrest
    have hblock := endsWell_block opening .curly (consumePrelude semicolonEnds ts).rest
    have hlast := (consumeBlock opening .curly (consumePrelude semicolonEnds ts).rest).last
    simp only at hrest ⊢
    rw [hprelude (hlast.ne_nil hrest), hblock hrest, List.append_nil]
  · exact fun hrest => absurd (rest_of_endOfText hend) hrest

/-! ### Rules from their first token on -/

lemma ne_nil_of_rules {list : ListKind} {ts : List Token} {before behind : List (Rose Component)}
    {rule : Rose Component} (h : (consumeRules list ts).rules = before ++ rule :: behind) :
    ts ≠ [] := by
  rintro rfl
  rw [consumeRules] at h
  simp at h

/-- A component with a rule behind it has met no problem. -/
lemma Consumed.EndsWell.findings_eq_nil {α : Type} {ts : List Token} {c : Consumed α ts}
    (hc : c.EndsWell) {list : ListKind} {before behind : List (Rose Component)}
    {rule : Rose Component} (h : (consumeRules list c.rest).rules = before ++ rule :: behind) :
    c.findings = [] :=
  hc (ne_nil_of_rules h)

/-- **From its first token on**, a rule and what follows it are consumed as they are in the list. -/
lemma exists_rule_start (list : ListKind) (ts : List Token) :
    ∀ (before behind : List (Rose Component)) (rule : Rose Component),
    (consumeRules list ts).rules = before ++ rule :: behind →
    ∃ first rest, first :: rest <:+ ts ∧ rule.value.location = first.start ∧
      consumeRules list (first :: rest) =
        ⟨rule :: behind, (consumeRules list ts).dropped, (consumeRules list ts).findings⟩ := by
  fun_induction consumeRules list ts with
  | case1 => simp
  | case2 t ts hignored ih =>
    intro before behind rule h
    obtain ⟨first, rest, hlast, hstart, hsame⟩ := ih before behind rule h
    exact ⟨first, rest, hlast.trans (List.suffix_cons t ts), hstart, hsame⟩
  | case3 t ts hignored hat made more ih =>
    intro before behind rule h
    rcases before with _ | ⟨earlier, before⟩
    · obtain ⟨rfl, rfl⟩ := List.cons.inj h
      refine ⟨t, ts, List.suffix_refl _, ?_, ?_⟩
      · exact congrArg Component.location (RuleParts.value_tree _ _ _)
      · rw [consumeRules, if_neg hignored, if_pos hat]
    · obtain ⟨-, hmore⟩ := List.cons.inj h
      have hfindings : made.findings = [] :=
        (endsWell_parts true _ ts).findings_eq_nil hmore
      obtain ⟨first, rest, hlast, hstart, hsame⟩ := ih before behind rule hmore
      refine ⟨first, rest, (hlast.trans made.last).trans (List.suffix_cons t ts), hstart, ?_⟩
      rw [hsame, hfindings]
      rfl
  | case4 t ts hignored hat made more tree hblock ih =>
    intro before behind rule h
    rcases before with _ | ⟨earlier, before⟩
    · obtain ⟨rfl, rfl⟩ := List.cons.inj h
      refine ⟨t, ts, List.suffix_refl _, ?_, ?_⟩
      · exact congrArg Component.location (RuleParts.value_tree _ _ _)
      · rw [consumeRules, if_neg hignored, if_neg hat]
        simp only
        rw [if_pos hblock]
    · obtain ⟨-, hmore⟩ := List.cons.inj h
      have hfindings : made.findings = [] :=
        (endsWell_parts false _ (t :: ts)).findings_eq_nil hmore
      obtain ⟨first, rest, hlast, hstart, hsame⟩ := ih before behind rule hmore
      refine ⟨first, rest, (hlast.trans made.last).trans (List.suffix_cons t ts), hstart, ?_⟩
      rw [hsame, hfindings]
      rfl
  | case5 t ts hignored hat made more tree hblock ih =>
    -- a rule is dropped where the text ends, so no other can follow it
    intro before behind rule h
    have hnil : made.rest = [] := rest_of_no_block (by simpa using hblock)
    exact absurd hnil (ne_nil_of_rules h)

namespace Source

variable {s : Source}

lemma material_of_suffix {first : Token} {rest : List Token} (h : first :: rest <:+ s.material) :
    (⟨s.text, first.start⟩ : Source).material = first :: rest := by
  induction s using next_induction with
  | atEnd s hend =>
    rw [material_of_end hend] at h
    exact absurd (List.suffix_nil.mp h) (List.cons_ne_nil _ _)
  | step s hlt ih =>
    by_cases hkind : s.token.kind = .comments
    · rw [material_of_comments hkind] at h
      exact ih h
    · rw [material_cons hlt hkind] at h
      rcases List.suffix_cons_iff.mp h with hall | h
      · obtain ⟨rfl, rfl⟩ := List.cons.inj hall
        exact material_cons hlt hkind
      · exact ih h

lemma location_le_of_mem_tokens {t : Token} (h : t ∈ s.tokens) : s.location ≤ s.text.length := by
  by_contra hend
  rw [tokens_of_end (by omega)] at h
  cases h

lemma lexical_from (h : s.location ≤ s.text.length) {p : ℕ} (hp : p ∈ s.starts) :
    (⟨s.text, p⟩ : Source).tokens.filterMap Token.finding? =
      (s.tokens.filterMap Token.finding?).filter (p ≤ ·.span.start) := by
  rw [tokens_from h hp, List.filterMap_filter, List.filter_filterMap]
  refine List.filterMap_congr fun t _ => ?_
  rw [Token.finding?]
  rcases t.error with _ | k
  · simp
  · by_cases hle : p ≤ t.span.start <;> simp [Option.filter, Token.start, hle]

variable {list : ListKind} {before behind : List (Rose Component)} {rule : Rose Component}

lemma sheet_from (h : (s.sheet list).rules = before ++ rule :: behind) :
    s.location ≤ s.text.length ∧ rule.value.location ∈ s.starts ∧
      (⟨s.text, rule.value.location⟩ : Source).sheet list =
        ⟨rule :: behind, (s.sheet list).dropped, (s.sheet list).findings⟩ := by
  obtain ⟨first, rest, hlast, hstart, hsame⟩ := exists_rule_start list s.material before behind
    rule h
  have hfirst : first ∈ s.tokens := (List.mem_filter.mp (hlast.subset List.mem_cons_self)).1
  refine ⟨location_le_of_mem_tokens hfirst, ?_, ?_⟩
  · rw [hstart]
    exact start_mem_starts hfirst
  · rw [hstart, sheet, material_of_suffix hlast, hsame]
    rfl

/-- The problems from a rule on are those that are found there: the others were found before. -/
lemma problems_from (h : (s.sheet list).rules = before ++ rule :: behind) {q : Parse}
    (hq : (⟨s.text, rule.value.location⟩ : Source).parse list = .ok q) :
    q.findings = (s.problems list).filter (rule.value.location ≤ ·.span.start) := by
  obtain ⟨hle, hmem, hsheet⟩ := sheet_from h
  have hfindings : q.findings = (⟨s.text, rule.value.location⟩ : Source).problems list := by
    rw [(parse_eq_ok_iff.mp hq).2]
  have hstructural : (s.sheet list).findings.filter (rule.value.location ≤ ·.span.start) =
      (s.sheet list).findings := by
    rw [List.filter_eq_self]
    intro found hfound
    have hreported : found ∈ q.findings := by
      rw [hfindings, problems, (sortFindings_perm _).mem_iff, hsheet]
      exact List.mem_append_left _ hfound
    obtain ⟨t, ht, hspan⟩ := exists_token_of_mem_findings hq hreported
    have hplace : rule.value.location ≤ s.text.length := le_length_of_mem_starts hle hmem
    have hbehind := location_le_start (s := ⟨s.text, rule.value.location⟩) hplace ht
    rw [hspan]
    exact decide_eq_true hbehind
  rw [hfindings, problems, problems, hsheet, lexical_from hle hmem, ← sortFindings_filter,
    List.filter_append, hstructural]

end Source

/-! ### Trees from a slot on -/

lemma Rose.exists_split_of_mem_starts {α : Type} {i j : ℕ} {ts : List (Rose α)}
    (h : j ∈ starts i ts) :
    ∃ before t behind, ts = before ++ t :: behind ∧ j = i + sizes before := by
  induction ts generalizing i with
  | nil => cases h
  | cons t ts ih =>
    rcases List.mem_cons.mp h with rfl | h
    · exact ⟨[], t, ts, rfl, rfl⟩
    · obtain ⟨before, u, behind, rfl, rfl⟩ := ih h
      exact ⟨t :: before, u, behind, rfl, Nat.add_assoc _ _ _⟩

/-- The parse `q` is what is left of `p` from the slot `r` on, whose component starts at
`location`. -/
structure Parse.Resumes (p q : Parse) (r location : ℕ) : Prop where
  root : q.tree.components.head? = some ⟨.ruleList, location, 0⟩
  skips : q.tree.skips.tail = p.tree.skips.drop r
  components : q.tree.components.tail = p.tree.components.drop r
  diagnostics : q.diagnostics = p.diagnostics.filter (location ≤ ·.span.start)

namespace Sheet

variable {sheet : Sheet} {before behind : List (Rose Component)} {rule : Rose Component}

lemma layout_from (h : sheet.rules = before ++ rule :: behind) (start : ℕ) :
    (sheet.tree start).layout.drop (1 + sizes before) = layouts (rule :: behind) := by
  rw [tree, layout_node, h, layouts_append, Nat.add_comm, List.drop_succ_cons, ← length_layouts,
    List.drop_left]

lemma get_rule (h : sheet.rules = before ++ rule :: behind) (start : ℕ) :
    (sheet.componentTree start).get (1 + sizes before) = .ok rule.value := by
  have hslot : (sheet.tree start).layout[1 + sizes before]? = some rule.slot := by
    calc (sheet.tree start).layout[1 + sizes before]?
        = ((sheet.tree start).layout.drop (1 + sizes before))[0]? := by rw [List.getElem?_drop]; rfl
      _ = some rule.slot := by
        rw [layout_from h, layouts_cons, layout_eq_map, subtrees_eq]
        rfl
  exact ComponentTree.get_of_getElem? _ (components_of_slot hslot)

end Sheet

namespace Source

variable {s : Source} {list : ListKind} {before behind : List (Rose Component)}
  {rule : Rose Component} {p : Parse}

lemma exists_resumes (h : (s.sheet list).rules = before ++ rule :: behind)
    (hp : s.parse list = .ok p) :
    ∃ q, (⟨s.text, rule.value.location⟩ : Source).parse list = .ok q ∧
      p.Resumes q (1 + sizes before) rule.value.location := by
  obtain ⟨-, -, hsheet⟩ := sheet_from h
  obtain ⟨hroom, rfl⟩ := parse_eq_ok_iff.mp hp
  have hfits : 1 + ((⟨s.text, rule.value.location⟩ : Source).sheet list).written ≤
      componentCapacity := by
    rw [Sheet.written, h, sizes_append] at hroom
    rw [hsheet]
    simp only [Sheet.written]
    omega
  have hlayout := Sheet.layout_from h s.location
  refine ⟨_, parse_eq_ok_iff.mpr ⟨hfits, rfl⟩, rfl, ?_, ?_, ?_⟩
  · rw [hsheet]
    change (layouts (rule :: behind)).map Slot.skip =
      (((s.sheet list).tree s.location).layout.map Slot.skip).drop _
    rw [← List.map_drop, hlayout]
  · rw [hsheet]
    change (layouts (rule :: behind)).map Slot.value =
      (((s.sheet list).tree s.location).layout.map Slot.value).drop _
    rw [← List.map_drop, hlayout]
  · have hproblems := problems_from h (parse_eq_ok_iff.mpr ⟨hfits, rfl⟩)
    rw [Parse.diagnostics, hproblems, Parse.diagnostics, List.filter_map]
    rfl

/-- **A rule is a place to start again**, whatever the text, the place to start at and the kind of
list. From where a rule starts on, parsing gives the rest of the tree and the problems found there.
Only a text too long for its tree to be counted in a word has no tree. -/
theorem rule_restarts_parse (s : Source) (list : ListKind) :
    match s.parse list with
    | .ok p => ∃ rules, p.tree.rules = .ok rules ∧ ∀ r ∈ rules, ∃ c s' q,
        p.tree.get r = .ok c ∧ s.seek c.location = .ok s' ∧ s'.parse list = .ok q ∧
          p.Resumes q r c.location
    | .error e => e = .overflow componentCapacity ∧
        componentCapacity < s.text.length - s.location + 2 := by
  rcases hp : s.parse list with e | p
  · exact overflow_of_parse hp
  · obtain ⟨hroom, htree⟩ := parse_eq_ok_iff.mp hp
    have hsize : ((s.sheet list).tree s.location).size ≤ componentCapacity := by
      have hrules : ((s.sheet list).tree s.location).size = 1 + sizes (s.sheet list).rules := rfl
      rw [Sheet.written] at hroom
      omega
    refine ⟨Rose.starts 1 (s.sheet list).rules, ?_, fun r hr => ?_⟩
    · rw [htree]
      exact (Sheet.rules_eq (isRule_of_mem list s.material) hsize).1
    · obtain ⟨before, rule, behind, hsplit, rfl⟩ := exists_split_of_mem_starts hr
      obtain ⟨hle, hmem, -⟩ := sheet_from hsplit
      obtain ⟨q, hq, hresumes⟩ := exists_resumes hsplit hp
      refine ⟨rule.value, ⟨s.text, rule.value.location⟩, q, ?_,
        if_pos (le_length_of_mem_starts hle hmem), hq, hresumes⟩
      rw [htree]
      exact Sheet.get_rule hsplit s.location

end Source

end Stylesheet
