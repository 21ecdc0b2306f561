import Stylesheet.Proofs.Growth
import Stylesheet.Proofs.Refinement

/-!
The shape of a parsed tree. Recursion makes rules of values, and only the list of rules holds rules,
so the kinds of the nodes say where in the tree they can be. In the flat form this is what the
children, the prelude and the block of a rule are read off.
-/

namespace Stylesheet

open Rose

/-! ### What recursion makes -/

/-- A node inside a rule. It is no rule and no list of rules, and if it is a single token, nothing
is below it. -/
structure IsInner (t : Rose Component) : Prop where
  notRule : t.value.kind.isRule = false
  notList : t.value.kind ≠ .ruleList
  extra : t.value.extra = 0
  leaf : t.value.kind.isComposite = false → t.children = []

def AllInner (ts : List (Rose Component)) : Prop := ∀ t ∈ subtreesAll ts, IsInner t

lemma allInner_nil : AllInner [] := by simp [AllInner]

lemma AllInner.append {ts us : List (Rose Component)} (ht : AllInner ts) (hu : AllInner us) :
    AllInner (ts ++ us) := by
  intro t h
  obtain ⟨w, hw, hmem⟩ := mem_subtreesAll.mp h
  rcases List.mem_append.mp hw with hw | hw
  · exact ht t (mem_subtreesAll.mpr ⟨w, hw, hmem⟩)
  · exact hu t (mem_subtreesAll.mpr ⟨w, hw, hmem⟩)

lemma AllInner.node {c : Component} {ts : List (Rose Component)} (hself : IsInner (.node c ts))
    (h : AllInner ts) : AllInner [.node c ts] := by
  intro t ht
  simp only [subtreesAll_cons, subtreesAll_nil, List.append_nil, subtrees_node,
    List.mem_cons] at ht
  rcases ht with rfl | ht
  · exact hself
  · exact h t ht

lemma kind_leaf (k : TokenKind) :
    ((ComponentKind.ofToken? k).getD .delim).isRule = false ∧
      (ComponentKind.ofToken? k).getD .delim ≠ .ruleList ∧
      (ComponentKind.ofToken? k).getD .delim ≠ .curlyBlock ∧
      ((ComponentKind.ofToken? k).getD .delim = .semicolon → k = .semicolon) := by
  cases k <;> decide

lemma inner_consume :
    (∀ t ts, AllInner [(consumeValue t ts).made]) ∧
      ∀ closer unclosed ts, AllInner (consumeValues closer unclosed ts).made := by
  refine consume_induction ?_ ?_ ?_ ?_ ?_ ?_
  · intro t ts ho hf
    obtain ⟨hrule, hlist, -⟩ := kind_leaf t.kind
    rw [consumeValue_leaf ho hf]
    exact .node ⟨hrule, hlist, rfl, fun _ => rfl⟩ allInner_nil
  · intro t ts bracket ho ih
    rw [consumeValue_opener ho, consumeBlock]
    refine .node ⟨?_, ?_, rfl, ?_⟩ ih <;> cases bracket <;> simp [Bracket.block,
      ComponentKind.isRule, ComponentKind.isComposite]
  · intro t ts hf ih
    rw [consumeValue_function hf, consumeFunction]
    exact .node ⟨rfl, by simp, rfl, by simp [ComponentKind.isComposite]⟩ ih
  · intro closer unclosed
    rw [consumeValues_nil]
    exact allInner_nil
  · intro closer unclosed t ts hc
    rw [consumeValues_close hc]
    exact allInner_nil
  · intro closer unclosed t ts hc ihv ihw
    rw [consumeValues_cons hc]
    exact ihv.append ihw

lemma inner_block (t : Token) (ts : List Token) : AllInner [(consumeBlock t .curly ts).made] := by
  have hvalues := inner_consume.2 Bracket.curly.closer ⟨.unclosedBlock .curly, t.span⟩ ts
  rw [consumeBlock]
  exact .node ⟨rfl, by simp [Bracket.block], rfl, by simp [Bracket.block,
    ComponentKind.isComposite]⟩ hvalues

lemma kind_consumeValue (t : Token) (ts : List Token) :
    ((consumeValue t ts).made.value.kind = .curlyBlock → t.kind = .leftBrace) ∧
      ((consumeValue t ts).made.value.kind = .semicolon → t.kind = .semicolon) := by
  rcases ho : Bracket.ofOpener? t.kind with _ | bracket
  · by_cases hf : t.kind = .function
    · rw [consumeValue_function hf, consumeFunction]
      simp
    · obtain ⟨-, -, hcurly, hsemicolon⟩ := kind_leaf t.kind
      rw [consumeValue_leaf ho hf]
      exact ⟨fun h => absurd h hcurly, hsemicolon⟩
  · rw [consumeValue_opener ho, consumeBlock]
    cases bracket with
    | curly =>
      have hbrace : t.kind = .leftBrace := by
        revert ho
        cases t.kind <;> simp [Bracket.ofOpener?]
      simp [hbrace, Bracket.block]
    | square => simp [Bracket.block]
    | round => simp [Bracket.block]

/-- What the prelude and the block of a rule are made of. -/
structure RuleParts.Shaped (r : RuleParts) (kind : ComponentKind) : Prop where
  inner : AllInner (r.values ++ r.block.toList)
  noCurly : ∀ v ∈ r.values, v.value.kind ≠ .curlyBlock
  noSemicolon : kind = .atRule → ∀ v ∈ r.values, v.value.kind ≠ .semicolon
  block : ∀ b ∈ r.block, b.value.kind = .curlyBlock
  needed : kind = .qualifiedRule → r.block.isSome

lemma prelude_shaped (semicolonEnds : Bool) (ts : List Token) :
    AllInner (consumePrelude semicolonEnds ts).made.values ∧
      ∀ v ∈ (consumePrelude semicolonEnds ts).made.values, v.value.kind ≠ .curlyBlock ∧
        (semicolonEnds = true → v.value.kind ≠ .semicolon) := by
  fun_induction consumePrelude semicolonEnds ts with
  | case1 => exact ⟨allInner_nil, by simp⟩
  | case2 => exact ⟨allInner_nil, by simp⟩
  | case3 => exact ⟨allInner_nil, by simp⟩
  | case4 t ts hsemicolon hbrace value more ih =>
    obtain ⟨hcurly, hsemi⟩ := kind_consumeValue t ts
    refine ⟨(inner_consume.1 t ts).append ih.1, ?_⟩
    intro v hv
    rcases List.mem_cons.mp hv with rfl | hv
    · exact ⟨fun h => hbrace (hcurly h), fun hends h => hsemicolon ⟨hends, hsemi h⟩⟩
    · exact ih.2 v hv

lemma parts_shaped (semicolonEnds : Bool) (unfinished : Finding) (ts : List Token) :
    AllInner ((consumeParts semicolonEnds unfinished ts).made.values ++
        (consumeParts semicolonEnds unfinished ts).made.block.toList) ∧
      (∀ v ∈ (consumeParts semicolonEnds unfinished ts).made.values, v.value.kind ≠ .curlyBlock ∧
        (semicolonEnds = true → v.value.kind ≠ .semicolon)) ∧
      ∀ b ∈ (consumeParts semicolonEnds unfinished ts).made.block, b.value.kind = .curlyBlock := by
  obtain ⟨hinner, hkinds⟩ := prelude_shaped semicolonEnds ts
  rw [consumeParts]
  rcases hend : (consumePrelude semicolonEnds ts).made.ending with _ | opening | _
  all_goals simp only
  · exact ⟨hinner.append allInner_nil, hkinds, by simp⟩
  · refine ⟨hinner.append (inner_block opening _), hkinds, ?_⟩
    rintro b ⟨⟩
    rw [consumeBlock]
    rfl
  · exact ⟨hinner.append allInner_nil, hkinds, by simp⟩

/-- A rule and the parts it is put together from. -/
def IsRule (rule : Rose Component) : Prop :=
  ∃ (parts : RuleParts) (kind : ComponentKind) (location : ℕ),
    rule = parts.tree kind location ∧ kind.isRule ∧ parts.Shaped kind

/-- **Rules are put together from their parts.** -/
lemma isRule_of_mem (list : ListKind) (ts : List Token) :
    ∀ rule ∈ (consumeRules list ts).rules, IsRule rule := by
  fun_induction consumeRules list ts with
  | case1 => simp
  | case2 t ts hi ih => exact ih
  | case3 t ts hi ha rule more ih =>
    intro r hr
    rcases List.mem_cons.mp hr with rfl | hr
    · obtain ⟨hinner, hkinds, hblock⟩ := parts_shaped true ⟨.unclosedAtRule, t.span⟩ ts
      refine ⟨_, .atRule, t.start, rfl, rfl, hinner, fun v hv => (hkinds v hv).1,
        fun _ v hv => (hkinds v hv).2 rfl, hblock, ?_⟩
      rintro ⟨⟩
    · exact ih r hr
  | case4 t ts hi ha rule more tree hb ih =>
    intro r hr
    rcases List.mem_cons.mp hr with rfl | hr
    · obtain ⟨hinner, hkinds, hblock⟩ := parts_shaped false ⟨.missingBlock, t.span⟩ (t :: ts)
      refine ⟨_, .qualifiedRule, t.start, rfl, rfl, hinner, fun v hv => (hkinds v hv).1, ?_, hblock,
        fun _ => hb⟩
      rintro ⟨⟩
    · exact ih r hr
  | case5 t ts hi ha rule more tree hb ih => exact ih

namespace RuleParts

variable (r : RuleParts) (kind : ComponentKind) (location : ℕ)

/-- How far the block of a rule is from it; zero if there is none. -/
def extra : ℕ := if r.block.isSome then 1 + sizes r.values else 0

variable {r} in
lemma extra_of_none (h : r.block = none) : r.extra = 0 := by
  unfold extra
  rw [h]
  rfl

variable {r} in
lemma extra_of_some {block : Rose Component} (h : r.block = some block) :
    r.extra = 1 + sizes r.values := by
  unfold extra
  rw [h]
  rfl

lemma value_tree : (r.tree kind location).value = ⟨kind, location, r.extra⟩ := by
  rcases r with ⟨values, _ | b⟩ <;> rfl

lemma children_tree : (r.tree kind location).children = r.values ++ r.block.toList := by
  rcases r with ⟨values, _ | b⟩
  · exact (List.append_nil values).symm
  · rfl

end RuleParts

lemma IsRule.isRule {rule : Rose Component} (h : IsRule rule) : rule.value.kind.isRule := by
  obtain ⟨parts, kind, location, rfl, hkind, -⟩ := h
  rw [RuleParts.value_tree]
  exact hkind

lemma isComposite_of_isRule {k : ComponentKind} (h : k.isRule) : k.isComposite = true := by
  cases k <;> first | rfl | cases h

lemma IsRule.extra_ne_zero {rule : Rose Component} (h : IsRule rule)
    (hkind : rule.value.kind = .qualifiedRule) : rule.value.extra ≠ 0 := by
  obtain ⟨parts, kind, location, rfl, -, hparts⟩ := h
  rw [RuleParts.value_tree] at hkind ⊢
  have hblock := hparts.needed hkind
  change parts.extra ≠ 0
  rw [RuleParts.extra, if_pos hblock]
  omega

lemma IsRule.inner {rule : Rose Component} (h : IsRule rule) : AllInner rule.children := by
  obtain ⟨parts, kind, location, rfl, -, hparts⟩ := h
  rw [RuleParts.children_tree]
  exact hparts.inner

/-! ### The flat form -/

namespace ComponentTree

/-- How the parts of a rule are found in the flat form: the components in `front` come first. -/
structure RuleShaped (t : ComponentTree) (index : ℕ) (c : Component) (front : List ℕ) : Prop where
  prelude : t.preludeOf index = .ok front
  kinds : ∀ i ∈ front, ∃ d : Component, t.components[i]? = some d ∧ d.kind ≠ .curlyBlock ∧
    (c.kind = .atRule → d.kind ≠ .semicolon)
  /-- The block is the last child, behind the prelude. -/
  block : c.extra ≠ 0 → ∃ (b : ℕ) (d : Component), t.ruleBlock? index = .ok (some b) ∧
    t.components[b]? = some d ∧ d.kind = .curlyBlock ∧ t.children index = .ok (front ++ [b])
  /-- Only an at-rule has no block, and then only the prelude. -/
  noBlock : c.extra = 0 → t.ruleBlock? index = .ok none ∧ t.children index = .ok front ∧
    c.kind = .atRule

/-- The shape of a parsed tree. -/
structure Shaped (t : ComponentTree) : Prop where
  wellFormed : WellFormed t.skips
  /-- The root owns all slots. -/
  whole : t.skips[0]? = some t.skips.length
  list : ∀ (i : ℕ) (c : Component), t.components[i]? = some c → (c.kind = .ruleList ↔ i = 0)
  /-- The children of the root are the rules of the tree. -/
  rules : ∃ is, t.rules = .ok is ∧ is.Pairwise (· < ·) ∧
    ∀ i, i ∈ is ↔ ∃ c : Component, t.components[i]? = some c ∧ c.kind.isRule
  leaf : ∀ (i : ℕ) (c : Component) (s : ℕ), t.components[i]? = some c → t.skips[i]? = some s →
    c.kind.isComposite = false → s = 1
  extra : ∀ (i : ℕ) (c : Component), t.components[i]? = some c → c.kind.isRule = false →
    c.extra = 0
  qualified : ∀ (i : ℕ) (c : Component), t.components[i]? = some c → c.kind = .qualifiedRule →
    c.extra ≠ 0
  rule : ∀ (i : ℕ) (c : Component), t.components[i]? = some c → c.kind.isRule →
    ∃ front, t.RuleShaped i c front

end ComponentTree

namespace Sheet

variable {sheet : Sheet} {start i : ℕ} {u : Rose Component}

lemma getElem?_components (sheet : Sheet) (start i : ℕ) :
    (sheet.componentTree start).components[i]? =
      (sheet.tree start).subtrees[i]?.map Rose.value := by
  change ((sheet.tree start).layout.map Slot.value)[i]? = _
  rw [layout_eq_map, List.map_map, List.getElem?_map]
  rfl

lemma getElem?_skips (sheet : Sheet) (start i : ℕ) :
    (sheet.componentTree start).skips[i]? = (sheet.tree start).subtrees[i]?.map Rose.size := by
  change ((sheet.tree start).layout.map Slot.skip)[i]? = _
  rw [layout_eq_map, List.map_map, List.getElem?_map]
  rfl

section node

variable (hrules : ∀ rule ∈ sheet.rules, IsRule rule)
  (h : (sheet.tree start).subtrees[i]? = some u)

include hrules h

/-- A node of a sheet is its root, one of its rules, or inside a rule. -/
lemma node_cases :
    i = 0 ∧ u = sheet.tree start ∨ 0 < i ∧ (u ∈ sheet.rules ∨ IsInner u) := by
  rw [Sheet.tree, subtrees_node] at h
  cases i with
  | zero => exact .inl ⟨rfl, (Option.some.inj h).symm⟩
  | succ i =>
    rw [List.getElem?_cons_succ] at h
    obtain ⟨rule, hrule, hmem⟩ := mem_subtreesAll.mp (List.mem_of_getElem? h)
    rw [subtrees_eq] at hmem
    refine .inr ⟨Nat.succ_pos i, ?_⟩
    rcases List.mem_cons.mp hmem with rfl | hmem
    · exact .inl hrule
    · exact .inr ((hrules rule hrule).inner u hmem)

lemma mem_rules_of_isRule (hkind : u.value.kind.isRule) : 0 < i ∧ u ∈ sheet.rules := by
  rcases node_cases hrules h with ⟨-, rfl⟩ | ⟨hpos, hu | hu⟩
  · cases hkind
  · exact ⟨hpos, hu⟩
  · rw [hu.notRule] at hkind
    cases hkind

/-- The root is the only list of rules. -/
lemma kind_eq_ruleList_iff : u.value.kind = .ruleList ↔ i = 0 := by
  rcases node_cases hrules h with ⟨rfl, rfl⟩ | ⟨hpos, hrule | hinner⟩
  · exact iff_of_true rfl rfl
  · refine iff_of_false (fun hlist => ?_) (by omega)
    have hkind := (hrules u hrule).isRule
    rw [hlist] at hkind
    cases hkind
  · exact iff_of_false hinner.notList (by omega)

lemma size_of_leaf (hleaf : u.value.kind.isComposite = false) : u.size = 1 := by
  rcases node_cases hrules h with ⟨-, rfl⟩ | ⟨-, hrule | hinner⟩
  · cases hleaf
  · rw [isComposite_of_isRule (hrules u hrule).isRule] at hleaf
    cases hleaf
  · rw [size_eq, hinner.leaf hleaf]
    rfl

lemma extra_of_not_rule (hkind : u.value.kind.isRule = false) : u.value.extra = 0 := by
  rcases node_cases hrules h with ⟨-, rfl⟩ | ⟨-, hrule | hinner⟩
  · rfl
  · rw [(hrules u hrule).isRule] at hkind
    cases hkind
  · exact hinner.extra

end node

section rule

variable {parts : RuleParts} {kind : ComponentKind} {location : ℕ}

lemma ruleBlock?_eq (h : (sheet.tree start).subtrees[i]? = some (parts.tree kind location))
    (hkind : kind.isRule) : (sheet.componentTree start).ruleBlock? i =
      .ok (if parts.extra ≠ 0 then some (i + parts.extra) else none) := by
  have hcomponent := getElem?_components sheet start i
  rw [h, Option.map_some, RuleParts.value_tree] at hcomponent
  rw [ComponentTree.ruleBlock?, ComponentTree.get_of_getElem? _ hcomponent, ok_bind]
  simp only [hkind, true_and]
  rfl

lemma drop_parts (h : (sheet.tree start).subtrees[i]? = some (parts.tree kind location)) :
    ∃ more, (sheet.tree start).layout.drop (i + 1) =
      layouts parts.values ++ (layouts parts.block.toList ++ more) := by
  have hall : (subtreesAll [sheet.tree start])[i]? = some (parts.tree kind location) := by
    simpa using h
  obtain ⟨more, hmore⟩ := drop_children hall
  refine ⟨more, ?_⟩
  rw [RuleParts.children_tree, layouts_append, List.append_assoc] at hmore
  simpa using hmore

lemma children_eq (hcap : (sheet.tree start).size ≤ componentCapacity)
    (h : (sheet.tree start).subtrees[i]? = some (parts.tree kind location)) :
    (sheet.componentTree start).children i =
      .ok (starts (i + 1) (parts.values ++ parts.block.toList)) := by
  have hall : (subtreesAll [sheet.tree start])[i]? = some (parts.tree kind location) := by
    simpa using h
  have hchildren := @children_layouts _ componentCapacity _ _ _ hall (by simpa using hcap)
  rw [RuleParts.children_tree, layouts_cons, layouts_nil, List.append_nil] at hchildren
  exact hchildren

lemma preludeOf_eq (hcap : (sheet.tree start).size ≤ componentCapacity)
    (h : (sheet.tree start).subtrees[i]? = some (parts.tree kind location)) (hkind : kind.isRule) :
    (sheet.componentTree start).preludeOf i = .ok (starts (i + 1) parts.values) := by
  have hle := add_size_le_size h
  have hsize := parts.size_tree kind location
  have hskip : (sheet.componentTree start).tree.skip i = .ok (parts.tree kind location).size := by
    have hskips := getElem?_skips sheet start i
    rw [h, Option.map_some] at hskips
    exact skipAt_of_getElem? hskips
  obtain ⟨more, hmore⟩ := drop_parts h
  have hdrop : (sheet.componentTree start).skips.drop (i + 1) =
      (layouts parts.values).map Slot.skip ++
        (layouts parts.block.toList ++ more).map Slot.skip := by
    change ((sheet.tree start).layout.map Slot.skip).drop (i + 1) = _
    rw [← List.map_drop, hmore, ← List.map_append]
  have hstop : (if parts.extra ≠ 0 then some (i + parts.extra) else none).getD
      (i + (parts.tree kind location).size) = i + 1 + sizes parts.values := by
    rcases hblock : parts.block with _ | block
    · rw [RuleParts.extra_of_none hblock, hsize, hblock]
      change i + (1 + sizes parts.values + 0) = _
      omega
    · rw [RuleParts.extra_of_some hblock, if_pos (by omega)]
      exact (Nat.add_assoc i 1 _).symm
  have hwalk := @siblings_layouts _ componentCapacity _ (i + 1) parts.values _ hdrop (by omega)
  rw [ComponentTree.preludeOf, ruleBlock?_eq h hkind, ok_bind, hskip, ok_bind, hstop]
  exact hwalk

lemma components_of_slot {u : Rose Component} (h : (sheet.tree start).layout[i]? = some u.slot) :
    (sheet.componentTree start).components[i]? = some u.value := by
  change ((sheet.tree start).layout.map Slot.value)[i]? = _
  rw [List.getElem?_map, h]
  rfl

/-- **The parts of a rule** are found where they are. -/
lemma ruleShaped (hcap : (sheet.tree start).size ≤ componentCapacity)
    (h : (sheet.tree start).subtrees[i]? = some (parts.tree kind location)) (hkind : kind.isRule)
    (hparts : parts.Shaped kind) :
    (sheet.componentTree start).RuleShaped i ⟨kind, location, parts.extra⟩
      (starts (i + 1) parts.values) := by
  obtain ⟨more, hmore⟩ := drop_parts h
  have hblock := ruleBlock?_eq h hkind
  have hchildren := children_eq hcap h
  refine ⟨preludeOf_eq hcap h hkind, ?_, ?_, ?_⟩
  · intro j hj
    obtain ⟨v, hv, hslot⟩ := exists_of_mem_starts hmore hj
    exact ⟨v.value, components_of_slot hslot, hparts.noCurly v hv,
      fun hat => hparts.noSemicolon hat v hv⟩
  · intro hextra
    simp only at hextra
    rw [if_pos hextra] at hblock
    rcases hsome : parts.block with _ | block
    · exact absurd (RuleParts.extra_of_none hsome) hextra
    · have hplace : i + parts.extra = i + 1 + sizes parts.values := by
        rw [RuleParts.extra_of_some hsome, Nat.add_assoc]
      rw [hsome] at hmore hchildren
      have hbehind : (sheet.tree start).layout.drop (i + parts.extra) =
          layouts [block] ++ more := by
        rw [hplace, ← List.drop_drop, hmore, ← length_layouts, List.drop_left]
        rfl
      obtain ⟨b, hb, hslot⟩ := exists_of_mem_starts hbehind (List.mem_cons_self)
      obtain rfl : b = block := List.mem_singleton.mp hb
      refine ⟨i + parts.extra, b.value, hblock, components_of_slot hslot, hparts.block b hsome, ?_⟩
      rw [hchildren, starts_append, hplace]
      rfl
  · intro hextra
    simp only at hextra
    rw [if_neg (not_not_intro hextra)] at hblock
    have hnone : parts.block = none := by
      rcases hsome : parts.block with _ | block
      · rfl
      · rw [RuleParts.extra_of_some hsome] at hextra
        omega
    refine ⟨hblock, ?_, ?_⟩
    · rw [hchildren, hnone]
      simp
    · cases kind with
      | atRule => rfl
      | qualifiedRule =>
        have hneeded := hparts.needed rfl
        rw [hnone] at hneeded
        cases hneeded
      | _ => cases hkind

end rule

lemma rules_eq (hrules : ∀ rule ∈ sheet.rules, IsRule rule)
    (hcap : (sheet.tree start).size ≤ componentCapacity) :
    (sheet.componentTree start).rules = .ok (starts 1 sheet.rules) ∧
      ∀ i, i ∈ starts 1 sheet.rules ↔
        ∃ c : Component, (sheet.componentTree start).components[i]? = some c ∧ c.kind.isRule := by
  refine ⟨?_, fun i => ⟨?_, ?_⟩⟩
  · have hroot : (subtreesAll [sheet.tree start])[0]? = some (sheet.tree start) := rfl
    have hchildren := @children_layouts _ componentCapacity _ _ _ hroot (by simpa using hcap)
    rw [layouts_cons, layouts_nil, List.append_nil] at hchildren
    exact hchildren
  · intro hi
    have hslots : (sheet.tree start).layout.drop 1 = layouts sheet.rules ++ [] :=
      (List.append_nil _).symm
    obtain ⟨rule, hrule, hslot⟩ := exists_of_mem_starts hslots hi
    exact ⟨rule.value, components_of_slot hslot, (hrules rule hrule).isRule⟩
  · rintro ⟨c, hc, hkind⟩
    rw [getElem?_components] at hc
    obtain ⟨u, hu, rfl⟩ := Option.map_eq_some_iff.mp hc
    obtain ⟨hpos, -⟩ := mem_rules_of_isRule hrules hu hkind
    obtain ⟨k, rfl⟩ : ∃ k, i = 1 + k := ⟨i - 1, by omega⟩
    have hplace : (subtreesAll sheet.rules)[k]? = some u := by
      rw [Sheet.tree, subtrees_node, Nat.add_comm, List.getElem?_cons_succ] at hu
      exact hu
    refine mem_starts hplace (fun rule hrule hmem => ?_) 1
    have hinner := (hrules rule hrule).inner u hmem
    rw [hinner.notRule] at hkind
    cases hkind

lemma exists_node {c : Component} (h : (sheet.componentTree start).components[i]? = some c) :
    ∃ u, (sheet.tree start).subtrees[i]? = some u ∧ u.value = c := by
  rw [getElem?_components] at h
  exact Option.map_eq_some_iff.mp h

/-- **The shape of a sheet** in flat form. -/
theorem shaped_componentTree (hrules : ∀ rule ∈ sheet.rules, IsRule rule)
    (hcap : (sheet.tree start).size ≤ componentCapacity) :
    (sheet.componentTree start).Shaped := by
  have hskips : (sheet.componentTree start).skips = (layouts [sheet.tree start]).map Slot.skip := by
    rw [layouts_cons, layouts_nil, List.append_nil]
    rfl
  refine ⟨?_, ?_, ?_, ?_, ?_, ?_, ?_, ?_⟩
  · rw [hskips]
    exact wellFormed_layouts _
  · rw [getElem?_skips, hskips, List.length_map, length_layouts, subtrees_eq]
    rfl
  · intro i c hc
    obtain ⟨u, hu, rfl⟩ := exists_node hc
    exact kind_eq_ruleList_iff hrules hu
  · obtain ⟨hchildren, hmem⟩ := @rules_eq sheet start hrules hcap
    exact ⟨_, hchildren, pairwise_starts 1 sheet.rules, hmem⟩
  · intro i c s hc hs hleaf
    obtain ⟨u, hu, rfl⟩ := exists_node hc
    rw [getElem?_skips, hu] at hs
    obtain rfl : u.size = s := Option.some.inj hs
    exact size_of_leaf hrules hu hleaf
  · intro i c hc hkind
    obtain ⟨u, hu, rfl⟩ := exists_node hc
    exact extra_of_not_rule hrules hu hkind
  · intro i c hc hkind
    obtain ⟨u, hu, rfl⟩ := exists_node hc
    obtain ⟨-, hrule⟩ := mem_rules_of_isRule hrules hu (by rw [hkind]; rfl)
    exact (hrules u hrule).extra_ne_zero hkind
  · intro i c hc hkind
    obtain ⟨u, hu, rfl⟩ := exists_node hc
    obtain ⟨-, hrule⟩ := mem_rules_of_isRule hrules hu hkind
    obtain ⟨parts, kind, location, rfl, hkind', hparts⟩ := hrules u hrule
    rw [RuleParts.value_tree]
    exact ⟨_, ruleShaped hcap hu hkind' hparts⟩

end Sheet

/-- **Parsed trees have their shape**, whatever the text, the place to start at and the kind of
list. Only a text too long for its tree to be counted in a word has none. -/
theorem Source.parsed_tree_shaped (s : Source) (list : ListKind) :
    match s.parse list with
    | .ok p => p.tree.Shaped
    | .error e => e = .overflow componentCapacity ∧
        componentCapacity < s.text.length - s.location + 2 := by
  have hwritten := s.written_sheet_le list
  rw [Source.parse_eq_reserve, reserve]
  split_ifs with hroom
  · refine Sheet.shaped_componentTree (isRule_of_mem list s.material) ?_
    have hsize : ((s.sheet list).tree s.location).size = 1 + sizes (s.sheet list).rules := rfl
    rw [Sheet.written] at hroom
    omega
  · exact ⟨rfl, by omega⟩

end Stylesheet
