import Stylesheet.Proofs.Findings
import Stylesheet.Proofs.Simulation
import Stylesheet.Proofs.Tiling

/-!
Parsing a text comes to the sheet that recursion makes of its tokens. The machine counts its slots
in a word of a fixed width, so it can stop for lack of room; but recursion writes at most two slots
more than there are characters in the text.
-/

namespace Stylesheet

open Rose

/-! ### How many slots recursion writes -/

/-- Every node of a value has a token of its own, and a closing token is a token without a node. -/
lemma size_consume :
    (∀ t ts, (consumeValue t ts).made.size + (consumeValue t ts).rest.length ≤ ts.length + 1) ∧
      ∀ closer unclosed ts,
        sizes (consumeValues closer unclosed ts).made +
            (consumeValues closer unclosed ts).rest.length ≤ ts.length ∧
          ((consumeValues closer unclosed ts).rest ≠ [] →
            sizes (consumeValues closer unclosed ts).made +
              (consumeValues closer unclosed ts).rest.length < ts.length) := by
  refine consume_induction ?_ ?_ ?_ ?_ ?_ ?_
  · intro t ts ho hf
    rw [consumeValue_leaf ho hf]
    simp [Token.leaf, Nat.add_comm]
  · intro t ts bracket ho ih
    rw [consumeValue_opener ho, consumeBlock]
    simp only [size_node]
    omega
  · intro t ts hf ih
    rw [consumeValue_function hf, consumeFunction]
    simp only [size_node]
    omega
  · intro closer unclosed
    rw [consumeValues_nil]
    exact ⟨Nat.le_refl _, fun h => absurd rfl h⟩
  · intro closer unclosed t ts hc
    rw [consumeValues_close hc]
    simp
  · intro closer unclosed t ts hc ihv ihw
    rw [consumeValues_cons hc]
    simp only [sizes_cons, List.length_cons]
    refine ⟨by omega, fun hrest => ?_⟩
    have := ihw.2 hrest
    omega

lemma size_block (t : Token) (bracket : Bracket) (ts : List Token) :
    (consumeBlock t bracket ts).made.size + (consumeBlock t bracket ts).rest.length ≤
        ts.length + 1 ∧
      ((consumeBlock t bracket ts).rest ≠ [] →
        (consumeBlock t bracket ts).made.size + (consumeBlock t bracket ts).rest.length ≤
          ts.length) := by
  have h := size_consume.2 bracket.closer ⟨.unclosedBlock bracket, t.span⟩ ts
  rw [consumeBlock]
  simp only [size_node]
  refine ⟨by omega, fun hrest => ?_⟩
  have := h.2 hrest
  omega

lemma size_prelude (semicolonEnds : Bool) (ts : List Token) :
    sizes (consumePrelude semicolonEnds ts).made.values +
        (consumePrelude semicolonEnds ts).rest.length ≤ ts.length ∧
      ∀ opening, (consumePrelude semicolonEnds ts).made.ending = .brace opening →
        sizes (consumePrelude semicolonEnds ts).made.values +
          (consumePrelude semicolonEnds ts).rest.length < ts.length := by
  fun_induction consumePrelude semicolonEnds ts with
  | case1 => simp
  | case2 => simp
  | case3 => simp
  | case4 t ts _ _ value more ih =>
    have hvalue : value.made.size + value.rest.length ≤ ts.length + 1 := size_consume.1 t ts
    have hmore : sizes more.made.values + more.rest.length ≤ value.rest.length := ih.1
    simp only [sizes_cons, List.length_cons]
    refine ⟨by omega, fun opening h => ?_⟩
    have hbrace : sizes more.made.values + more.rest.length < value.rest.length := ih.2 opening h
    omega

lemma size_parts (semicolonEnds : Bool) (unfinished : Finding) (ts : List Token) :
    sizes (consumeParts semicolonEnds unfinished ts).made.values +
        sizes (consumeParts semicolonEnds unfinished ts).made.block.toList +
        (consumeParts semicolonEnds unfinished ts).rest.length ≤ ts.length := by
  obtain ⟨hle, hbrace⟩ := size_prelude semicolonEnds ts
  rw [consumeParts]
  rcases hend : (consumePrelude semicolonEnds ts).made.ending with _ | opening | _
  · simpa using hle
  · have hlt := hbrace opening hend
    have hblock := (size_block opening .curly (consumePrelude semicolonEnds ts).rest).1
    simp only [Option.toList_some, sizes_cons, sizes_nil]
    omega
  · simpa using hle

lemma size_atRule (t : Token) (ts : List Token) :
    (consumeAtRule t ts).made.size + (consumeAtRule t ts).rest.length ≤ ts.length + 1 := by
  have h := size_parts true ⟨.unclosedAtRule, t.span⟩ ts
  rw [consumeAtRule]
  simp only [RuleParts.size_tree]
  omega

/-- The node of a qualified rule has no token of its own; if anything is left behind the rule, the
bracket that closes its block makes up for it. -/
lemma size_qualifiedRule (t : Token) (ts : List Token) :
    ((consumeQualifiedRule t ts).made.tree .qualifiedRule t.start).size +
        (consumeQualifiedRule t ts).rest.length ≤ ts.length + 2 ∧
      ((consumeQualifiedRule t ts).rest ≠ [] →
        ((consumeQualifiedRule t ts).made.tree .qualifiedRule t.start).size +
          (consumeQualifiedRule t ts).rest.length ≤ ts.length + 1) := by
  have hparts := size_parts false ⟨.missingBlock, t.span⟩ (t :: ts)
  have hbrace := (size_prelude false (t :: ts)).2
  rw [RuleParts.size_tree, consumeQualifiedRule]
  simp only [List.length_cons] at hparts hbrace
  refine ⟨by omega, fun hrest => ?_⟩
  rw [consumeParts] at hrest ⊢
  rcases hend : (consumePrelude false (t :: ts)).made.ending with _ | opening | _
  · exact absurd hend (ending_ne_semicolon _)
  · have hlt := hbrace opening hend
    have hblock := (size_block opening .curly (consumePrelude false (t :: ts)).rest).2
    simp only [hend] at hrest
    have := hblock hrest
    simp only [Option.toList_some, sizes_cons, sizes_nil]
    omega
  · simp only [hend] at hrest
    exact absurd (rest_of_endOfText hend) hrest

/-- Of all the nodes without a token only that of the last qualified rule is not made up for. -/
lemma written_le (list : ListKind) (ts : List Token) :
    (consumeRules list ts).written ≤ ts.length + 1 := by
  fun_induction consumeRules list ts with
  | case1 => simp [Sheet.written]
  | case2 t ts hi ih => rw [List.length_cons]; omega
  | case3 t ts hi ha rule more ih =>
    have hrule : rule.made.size + rule.rest.length ≤ ts.length + 1 := size_atRule t ts
    have hmore : sizes more.rules + sizes more.dropped ≤ rule.rest.length + 1 := ih
    simp only [Sheet.written, sizes_cons, List.length_cons]
    omega
  | case4 t ts hi ha rule more tree hb ih | case5 t ts hi ha rule more tree hb ih =>
    have hrule : tree.size + rule.rest.length ≤ ts.length + 2 := (size_qualifiedRule t ts).1
    have hmore : sizes more.rules + sizes more.dropped ≤ rule.rest.length + 1 := ih
    simp only [Sheet.written, sizes_cons, List.length_cons]
    by_cases hrest : rule.rest = []
    · have hnone : more = ⟨[], [], []⟩ := by
        simp only [more, hrest]; rw [consumeRules]
      simp only [hnone, sizes_nil]
      omega
    · have hless : tree.size + rule.rest.length ≤ ts.length + 1 :=
        (size_qualifiedRule t ts).2 hrest
      omega

/-! ### A whole parse -/

namespace Source

variable {s : Source}

lemma isMaterial_of_mem {t : Token} (h : t ∈ s.material) : t.IsMaterial := by
  obtain ⟨hmem, hkind⟩ := List.mem_filter.mp h
  exact ⟨kind_ne_eof_of_mem_tokens hmem, by simpa using hkind⟩

lemma length_material_le (s : Source) : s.material.length ≤ s.text.length - s.location :=
  Nat.le_trans (List.length_filter_le _ _) s.length_tokens_le

lemma written_sheet_le (s : Source) (list : ListKind) :
    1 + (s.sheet list).written ≤ s.text.length - s.location + 2 := by
  have hwritten : (s.sheet list).written ≤ s.material.length + 1 := written_le list s.material
  have hlength := s.length_material_le
  omega

end Source

def Sheet.componentTree (sheet : Sheet) (start : ℕ) : ComponentTree :=
  ⟨⟨(sheet.tree start).layout⟩, by simp [SkipTree.values, Sheet.tree]⟩

namespace Source

variable (s : Source) (list : ListKind)

/-- All the problems of a text, in the order in which they are reported. -/
def problems : List Finding :=
  sortFindings ((s.sheet list).findings ++ s.tokens.filterMap Token.finding?)

/-- What comes of feeding all the tokens and closing at their end what is still open. -/
def completed : Except TreeError (ComponentBuilder × List Finding) :=
  (Machine.ofLevels s.location [⟨.ruleList list, []⟩]).complete s.material

lemma completed_eq :
    s.completed list = reserve componentCapacity (1 + (s.sheet list).written)
      (.ok (.ofTree componentCapacity ((s.sheet list).tree s.location), (s.sheet list).findings)) :=
  Machine.complete_rules list (fun _ => isMaterial_of_mem) [] (show 1 ≤ componentCapacity by decide)

lemma ofTree_sheet : ComponentTree.ofTree ⟨((s.sheet list).tree s.location).layout⟩ =
    .ok ((s.sheet list).componentTree s.location) := dif_pos _

lemma parse_eq_reserve :
    s.parse list = reserve componentCapacity (1 + (s.sheet list).written)
      (.ok ⟨(s.sheet list).componentTree s.location, s.problems list⟩) := by
  have hparse : s.parse list = s.completed list >>= fun p => do
      let tree ← ComponentTree.ofTree (← p.1.finish)
      return ⟨tree, sortFindings (p.2 ++ s.tokens.filterMap Token.finding?)⟩ := by
    rw [parse, Machine.start_eq_ofLevels, ok_bind, completed, Machine.complete, bind_assoc]
    rfl
  have hfinish : (Builder.ofTree componentCapacity ((s.sheet list).tree s.location)).finish =
      .ok ⟨((s.sheet list).tree s.location).layout⟩ := rfl
  rw [hparse, completed_eq, reserve_bind, ok_bind, hfinish, ok_bind, ofTree_sheet, ok_bind]
  rfl

variable {s list} in
lemma parse_eq_ok_iff {p : Parse} :
    s.parse list = .ok p ↔ 1 + (s.sheet list).written ≤ componentCapacity ∧
      p = ⟨(s.sheet list).componentTree s.location, s.problems list⟩ := by
  rw [parse_eq_reserve, reserve]
  split_ifs with hroom
  · exact ⟨fun h => ⟨hroom, (Except.ok.inj h).symm⟩, fun h => by rw [h.2]⟩
  · exact ⟨fun h => (by cases h), fun h => absurd h.1 hroom⟩

variable {s list} in
lemma overflow_of_parse {e : TreeError} (h : s.parse list = .error e) :
    e = .overflow componentCapacity ∧
      componentCapacity < s.text.length - s.location + 2 := by
  have hwritten := s.written_sheet_le list
  rw [parse_eq_reserve, reserve] at h
  split_ifs at h with hroom
  cases h
  exact ⟨rfl, by omega⟩

/-- The problems of structure among all the problems are those that recursion meets. -/
lemma structural_problems :
    ((s.problems list).filter Finding.isStructural).Perm (s.sheet list).findings := by
  have hperm := (sortFindings_perm
    ((s.sheet list).findings ++ s.tokens.filterMap Token.finding?)).filter Finding.isStructural
  have hself : (s.sheet list).findings.filter Finding.isStructural = (s.sheet list).findings :=
    List.filter_eq_self.mpr (structural_rules list s.material)
  rw [List.filter_append, filter_lexical, List.append_nil, hself] at hperm
  exact hperm

end Source

end Stylesheet
