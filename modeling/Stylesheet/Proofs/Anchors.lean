import Stylesheet.Proofs.Cutting
import Stylesheet.Proofs.Linear
import Stylesheet.Proofs.Outline
import Stylesheet.Proofs.Quoting
import Stylesheet.Proofs.Shape

/-!
Where the components of a parsed tree start. A component is written when its token is read, and
what is read later is written behind it; so in preorder the components start at tokens of the text,
one behind the other, and reading the text of a component again finds its own token. Only a list of
rules and a qualified rule have no token of their own: the list starts where reading does, and the
rule where its first component does.
-/

namespace Stylesheet

open Rose

/-- The token that a component starts with, as its kind and its place. -/
def Component.anchor? (c : Component) : Option (TokenKind × ℕ) :=
  c.kind.tokenKind?.map fun kind => (kind, c.location)

def Token.anchor (t : Token) : TokenKind × ℕ := (t.kind, t.start)

/-- The components start with some of the tokens, in their order. -/
def Anchored (cs : List Component) (ts : List Token) : Prop :=
  (cs.filterMap Component.anchor?).Sublist (ts.map Token.anchor)

namespace Anchored

variable {c : Component} {cs ds : List Component} {t : Token} {ts us : List Token}

lemma nil (ts : List Token) : Anchored [] ts := List.nil_sublist _

lemma append (h : Anchored cs ts) (h' : Anchored ds us) : Anchored (cs ++ ds) (ts ++ us) := by
  unfold Anchored
  rw [List.filterMap_append, List.map_append]
  exact List.Sublist.append h h'

lemma cons (hc : c.anchor? = some t.anchor) (h : Anchored cs ts) :
    Anchored (c :: cs) (t :: ts) := by
  unfold Anchored
  rw [List.filterMap_cons_some hc, List.map_cons]
  exact h.cons_cons _

lemma skip (hc : c.anchor? = none) (h : Anchored cs ts) : Anchored (c :: cs) ts := by
  unfold Anchored
  rwa [List.filterMap_cons_none hc]

lemma mono (h : Anchored cs ts) (hsub : ts.Sublist us) : Anchored cs us :=
  List.Sublist.trans h (hsub.map Token.anchor)

end Anchored

def Rose.components (ts : List (Rose Component)) : List Component := (layouts ts).map Slot.value

@[simp] lemma components_nil : components [] = [] := rfl

lemma components_append (ts us : List (Rose Component)) :
    components (ts ++ us) = components ts ++ components us := by
  unfold components
  rw [layouts_append, List.map_append]

lemma components_cons (t : Rose Component) (ts : List (Rose Component)) :
    components (t :: ts) = t.value :: (components t.children ++ components ts) := by
  cases t with
  | node c us =>
    unfold components
    rw [layouts_cons, layout_node, List.cons_append, List.map_cons, List.map_append]
    rfl

/-! ### Values -/

lemma anchor_leaf {t : Token} (ht : t.IsMaterial) (ho : Bracket.ofOpener? t.kind = none)
    (hf : t.kind ≠ .function) : t.leaf.value.anchor? = some t.anchor := by
  obtain ⟨kind, hk⟩ := Machine.exists_leaf ht ho hf
  unfold Token.leaf Component.anchor?
  rw [hk, value_node]
  simp only [Option.getD_some, ComponentKind.tokenKind?_of_ofToken? hk]
  rfl

lemma anchored_consume :
    (∀ t ts, t.IsMaterial → (∀ u ∈ ts, u.IsMaterial) →
      ∃ run, ts = run ++ (consumeValue t ts).rest ∧
        Anchored (components [(consumeValue t ts).made]) (t :: run)) ∧
      ∀ closer unclosed ts, (∀ u ∈ ts, u.IsMaterial) →
        ∃ run, ts = run ++ (consumeValues closer unclosed ts).rest ∧
          Anchored (components (consumeValues closer unclosed ts).made) run := by
  refine consume_induction ?_ ?_ ?_ ?_ ?_ ?_
  · intro t ts ho hf ht _
    rw [consumeValue_leaf ho hf]
    exact ⟨[], rfl, .cons (anchor_leaf ht ho hf) (.nil _)⟩
  · intro t ts bracket ho ih _ hts
    obtain ⟨run, hsplit, hrun⟩ := ih hts
    rw [consumeValue_opener ho, consumeBlock]
    refine ⟨run, hsplit, ?_⟩
    rw [components_cons, components_nil, List.append_nil]
    refine .cons ?_ hrun
    unfold Component.anchor?
    rw [value_node]
    simp only [tokenKind_block ho]
    rfl
  · intro t ts hf ih _ hts
    obtain ⟨run, hsplit, hrun⟩ := ih hts
    rw [consumeValue_function hf, consumeFunction]
    refine ⟨run, hsplit, ?_⟩
    rw [components_cons, components_nil, List.append_nil]
    refine .cons ?_ hrun
    unfold Token.anchor
    rw [hf]
    rfl
  · intro closer unclosed _
    rw [consumeValues_nil]
    exact ⟨[], rfl, .nil _⟩
  · intro closer unclosed t ts hc _
    rw [consumeValues_close hc]
    exact ⟨[t], rfl, .nil _⟩
  · intro closer unclosed t ts hc ihv ihw hts
    have hmore : ∀ u ∈ ts, u.IsMaterial := fun u hu => hts u (List.mem_cons_of_mem t hu)
    obtain ⟨run, hsplit, hrun⟩ := ihv (hts t List.mem_cons_self) hmore
    obtain ⟨body, hbody, hvalues⟩ := ihw fun u hu => hmore u ((consumeValue t ts).last.subset hu)
    rw [consumeValues_cons hc]
    refine ⟨t :: run ++ body, ?_, ?_⟩
    · rw [List.append_assoc, ← hbody, List.cons_append, ← hsplit]
    · have happend := hrun.append hvalues
      rwa [← components_append] at happend

lemma location_consumeValue (t : Token) (ts : List Token) :
    (consumeValue t ts).made.value.location = t.start := by
  rcases ho : Bracket.ofOpener? t.kind with _ | bracket
  · by_cases hf : t.kind = .function
    · rw [consumeValue_function hf, consumeFunction]
      rfl
    · rw [consumeValue_leaf ho hf]
      rfl
  · rw [consumeValue_opener ho, consumeBlock]
    rfl

/-! ### Rules -/

/-- The brace that ends a prelude. -/
def PreludeEnd.opener? : PreludeEnd → Option Token
  | .brace opening => some opening
  | .semicolon | .endOfText => none

lemma anchored_prelude {semicolonEnds : Bool} {ts : List Token} (hts : ∀ u ∈ ts, u.IsMaterial) :
    ∃ run, Anchored (components (consumePrelude semicolonEnds ts).made.values) run ∧
      ts = run ++ ((consumePrelude semicolonEnds ts).made.ending.opener?.toList ++
        (consumePrelude semicolonEnds ts).rest) ∧
      ∀ opening ∈ (consumePrelude semicolonEnds ts).made.ending.opener?,
        opening.kind = .leftBrace := by
  fun_induction consumePrelude semicolonEnds ts with
  | case1 => exact ⟨[], .nil _, rfl, by rintro _ ⟨⟩⟩
  | case2 t ts hs => exact ⟨[t], .nil _, rfl, by rintro _ ⟨⟩⟩
  | case3 t ts hs hb => exact ⟨[], .nil _, rfl, by rintro _ ⟨⟩; exact hb⟩
  | case4 t ts hs hb value more ih =>
    have hmore : ∀ u ∈ ts, u.IsMaterial := fun u hu => hts u (List.mem_cons_of_mem t hu)
    obtain ⟨run, hsplit, hrun⟩ := anchored_consume.1 t ts (hts t List.mem_cons_self) hmore
    obtain ⟨body, hvalues, hbody, hkind⟩ := ih fun u hu => hmore u (value.last.subset hu)
    refine ⟨t :: run ++ body, ?_, ?_, hkind⟩
    · have happend := hrun.append hvalues
      rwa [← components_append] at happend
    · calc t :: ts = t :: run ++ value.rest := congrArg (t :: ·) hsplit
        _ = t :: run ++ (body ++ (more.made.ending.opener?.toList ++ more.rest)) :=
          congrArg _ hbody
        _ = _ := (List.append_assoc ..).symm

lemma anchored_parts {semicolonEnds : Bool} {unfinished : Finding} {ts : List Token}
    (hts : ∀ u ∈ ts, u.IsMaterial) :
    ∃ run, ts = run ++ (consumeParts semicolonEnds unfinished ts).rest ∧
      Anchored (components ((consumeParts semicolonEnds unfinished ts).made.values ++
        (consumeParts semicolonEnds unfinished ts).made.block.toList)) run := by
  obtain ⟨run, hrun, hsplit, hkind⟩ := @anchored_prelude semicolonEnds ts hts
  rw [consumeParts]
  rcases hend : (consumePrelude semicolonEnds ts).made.ending with _ | opening | _
  all_goals
    rw [hend] at hsplit hkind
    simp only
  · exact ⟨run, hsplit, by rwa [Option.toList_none, List.append_nil]⟩
  · -- the block is the value that its brace opens
    have hopener : Bracket.ofOpener? opening.kind = some .curly := by
      rw [hkind opening rfl]
      rfl
    have hmaterial : ∀ u ∈ opening :: (consumePrelude semicolonEnds ts).rest, u.IsMaterial := by
      intro u hu
      refine hts u ?_
      rw [hsplit]
      exact List.mem_append_right run hu
    obtain ⟨body, hbody, hblock⟩ := anchored_consume.1 opening
      (consumePrelude semicolonEnds ts).rest (hmaterial opening List.mem_cons_self)
      fun u hu => hmaterial u (List.mem_cons_of_mem opening hu)
    rw [consumeValue_opener hopener] at hbody hblock
    refine ⟨run ++ opening :: body, ?_, ?_⟩
    · rw [List.append_assoc, List.cons_append, ← hbody]
      exact hsplit
    · rw [components_append]
      exact hrun.append hblock
  · exact ⟨run, hsplit, by rwa [Option.toList_none, List.append_nil]⟩

/-- **The rules of a list** start with its tokens, in their order. -/
theorem anchored_rules {list : ListKind} {ts : List Token} (hts : ∀ u ∈ ts, u.IsMaterial) :
    Anchored (components (consumeRules list ts).rules) ts := by
  fun_induction consumeRules list ts with
  | case1 => exact .nil _
  | case2 t ts hi ih =>
    exact (ih fun u hu => hts u (List.mem_cons_of_mem t hu)).mono (List.sublist_cons_self t ts)
  | case3 t ts hi ha rule more ih =>
    have hmore : ∀ u ∈ ts, u.IsMaterial := fun u hu => hts u (List.mem_cons_of_mem t hu)
    obtain ⟨run, hsplit, hrun⟩ :=
      @anchored_parts true ⟨.unclosedAtRule, t.span⟩ ts hmore
    have hrest := ih fun u hu => hmore u (rule.last.subset hu)
    have hall : t :: ts = t :: run ++ rule.rest := congrArg (t :: ·) hsplit
    have hself : rule.made.value.anchor? = some t.anchor := by
      change ((RuleParts.tree _ .atRule t.start).value).anchor? = _
      rw [RuleParts.value_tree]
      unfold Token.anchor
      rw [ha]
      rfl
    rw [hall, components_cons, ← List.cons_append]
    refine .append (.cons hself ?_) hrest
    change Anchored (components (RuleParts.tree _ .atRule t.start).children) run
    rwa [RuleParts.children_tree]
  | case4 t ts hi ha rule more tree hb ih =>
    have hmore : ∀ u ∈ ts, u.IsMaterial := fun u hu => hts u (List.mem_cons_of_mem t hu)
    obtain ⟨run, hsplit, hrun⟩ := @anchored_parts false ⟨.missingBlock, t.span⟩ (t :: ts) hts
    have hrest := ih fun u hu => hmore u (rule.last.subset hu)
    have hall : t :: ts = run ++ rule.rest := hsplit
    rw [hall, components_cons, ← List.cons_append]
    refine .append (.skip ?_ ?_) hrest
    · rw [RuleParts.value_tree]
      rfl
    · rwa [RuleParts.children_tree]
  | case5 t ts hi ha rule more tree hb ih =>
    have hmore : ∀ u ∈ ts, u.IsMaterial := fun u hu => hts u (List.mem_cons_of_mem t hu)
    have hrest := ih fun u hu => hmore u (rule.last.subset hu)
    exact hrest.mono (rule.last.sublist.trans (List.sublist_cons_self t ts))

lemma values_consumeParts (semicolonEnds : Bool) (unfinished : Finding) (ts : List Token) :
    (consumeParts semicolonEnds unfinished ts).made.values =
      (consumePrelude semicolonEnds ts).made.values := by
  rw [consumeParts]
  rcases hend : (consumePrelude semicolonEnds ts).made.ending with _ | opening | _ <;> rfl

lemma first_consumeQualifiedRule (t : Token) (ts : List Token) :
    ∃ child more, (consumeQualifiedRule t ts).made.values ++
        (consumeQualifiedRule t ts).made.block.toList = child :: more ∧
      child.value.location = t.start := by
  by_cases hb : t.kind = .leftBrace
  · have hprelude : (consumePrelude false (t :: ts)).made = ⟨[], .brace t⟩ := by
      rw [consumePrelude, if_neg (by simp), if_pos hb]
    unfold consumeQualifiedRule consumeParts
    simp only [hprelude]
    refine ⟨_, [], rfl, ?_⟩
    rw [consumeBlock]
    rfl
  · have hprelude : (consumePrelude false (t :: ts)).made.values =
        (consumeValue t ts).made ::
          (consumePrelude false (consumeValue t ts).rest).made.values := by
      rw [consumePrelude, if_neg (by simp), if_neg hb]
    unfold consumeQualifiedRule
    rw [values_consumeParts, hprelude, List.cons_append]
    exact ⟨_, _, rfl, location_consumeValue t ts⟩

lemma first_of_mem_rules {list : ListKind} {ts : List Token} :
    ∀ rule ∈ (consumeRules list ts).rules, rule.value.kind = .qualifiedRule →
      ∃ child more, rule.children = child :: more ∧
        child.value.location = rule.value.location := by
  fun_induction consumeRules list ts with
  | case1 => simp
  | case2 t ts hi ih => exact ih
  | case3 t ts hi ha rule more ih =>
    intro r hr hkind
    rcases List.mem_cons.mp hr with rfl | hr
    · change (RuleParts.tree _ .atRule t.start).value.kind = _ at hkind
      rw [RuleParts.value_tree] at hkind
      cases hkind
    · exact ih r hr hkind
  | case4 t ts hi ha rule more tree hb ih =>
    intro r hr hkind
    rcases List.mem_cons.mp hr with rfl | hr
    · rw [RuleParts.value_tree, RuleParts.children_tree]
      exact first_consumeQualifiedRule t ts
    · exact ih r hr hkind
  | case5 t ts hi ha rule more tree hb ih => exact ih

/-! ### Parsed trees -/

namespace Anchored

variable {s : Source} {c : Component} {cs : List Component} {ts : List Token}

lemma exists_token (h : Anchored cs ts) (hc : c ∈ cs) {kind : TokenKind}
    (hkind : c.kind.tokenKind? = some kind) :
    ∃ u ∈ ts, u.kind = kind ∧ u.start = c.location := by
  have hanchor : c.anchor? = some (kind, c.location) := by
    unfold Component.anchor?
    rw [hkind]
    rfl
  have hmem := h.subset (List.mem_filterMap.mpr ⟨c, hc, hanchor⟩)
  obtain ⟨u, hu, heq⟩ := List.mem_map.mp hmem
  obtain ⟨rfl, hstart⟩ := Prod.mk.inj heq
  exact ⟨u, hu, rfl, hstart⟩

/-- Components that start with the tokens of a text start one behind the other. -/
lemma pairwise (h : Anchored cs s.tokens) :
    cs.Pairwise fun c d => c.kind.tokenKind?.isSome → d.kind.tokenKind?.isSome →
      c.location < d.location := by
  have htokens : (s.tokens.map Token.anchor).Pairwise fun p q => p.2 < q.2 := by
    refine List.pairwise_map.mpr (s.pairwise_tokens.imp_of_mem fun ht _ hle => ?_)
    exact Nat.lt_of_lt_of_le (Source.start_lt_stop ht) hle
  have hanchors := htokens.sublist h
  refine (List.pairwise_filterMap.mp hanchors).imp fun {c d} hrel hc hd => ?_
  obtain ⟨_, hc⟩ := Option.isSome_iff_exists.mp hc
  obtain ⟨_, hd⟩ := Option.isSome_iff_exists.mp hd
  exact hrel _ (by rw [Component.anchor?, hc]; rfl) _ (by rw [Component.anchor?, hd]; rfl)

/-- Reading the token of a component anew finds the one of the straight pass. -/
lemma exists_span (h : Anchored cs s.tokens) (hc : c ∈ cs) {kind : TokenKind}
    (hkind : c.kind.tokenKind? = some kind) :
    ∃ u ∈ s.tokens, u.kind = kind ∧ u.start = c.location ∧
      s.tokenSpan c.location = .ok u.span := by
  obtain ⟨u, hu, rfl, hstart⟩ := h.exists_token hc hkind
  refine ⟨u, hu, rfl, hstart, ?_⟩
  rw [← hstart]
  exact Source.tokenSpan_of_standsIn (Source.standsIn_of_mem_tokens hu)

/-- What is read for one component ends before the next one starts. -/
lemma disjoint (h : Anchored cs s.tokens) :
    cs.Pairwise fun c d => c.kind.tokenKind?.isSome → d.kind.tokenKind?.isSome →
      ∀ span, s.tokenSpan c.location = .ok span → span.stop ≤ d.location := by
  refine h.pairwise.imp_of_mem fun {c d} hc hd hlt hctoken hdtoken span hspan => ?_
  obtain ⟨_, hckind⟩ := Option.isSome_iff_exists.mp hctoken
  obtain ⟨_, hdkind⟩ := Option.isSome_iff_exists.mp hdtoken
  obtain ⟨u, hu, -, hustart, huspan⟩ := h.exists_span hc hckind
  obtain ⟨w, hw, -, hwstart⟩ := h.exists_token hd hdkind
  obtain rfl : u.span = span := Except.ok.inj (huspan.symm.trans hspan)
  have hlocation := hlt hctoken hdtoken
  by_contra hoverlap
  -- otherwise the second token would start inside the first one
  have hinside : w.start < u.stop := by
    rw [hwstart]
    exact Nat.not_le.mp hoverlap
  have hsame := Source.eq_of_mem_tokens hw hu (by omega) hinside
  rw [hsame] at hwstart
  omega

end Anchored

/-- A line of the listing. Behind the heading that of a leaf has a blank and, as a literal, the text
of its token as the token stands in the straight pass; and this text can be read back from it. -/
inductive Component.Prints (s : Source) (c : Component) (depth : ℕ) : List Char → Prop
  | composite (h : c.kind.isComposite) : Prints s c depth (c.heading depth ++ ['\n'])
  | leaf {line raw : List Char} (u : Token) (hu : u ∈ s.tokens)
      (hleaf : c.kind.isComposite = false) (hkind : c.kind.tokenKind? = some u.kind)
      (hstart : u.start = c.location) (hraw : raw = (s.text.drop u.start).take u.span.length)
      (hline : line = c.heading depth ++ ' ' :: (Text.literal raw ++ ['\n']))
      (hread : Text.unquote (line.dropWhile (· ≠ '"')) = some (raw, ['\n'])) :
    Prints s c depth line

/-- The components of a tree are at their tokens in the text. -/
structure ComponentTree.Points (t : ComponentTree) (s : Source) : Prop where
  token : ∀ c ∈ t.components, ∀ kind, c.kind.tokenKind? = some kind →
    ∃ u ∈ s.tokens, u.kind = kind ∧ u.start = c.location ∧ s.tokenSpan c.location = .ok u.span
  increasing : t.components.Pairwise fun c d =>
    c.kind.tokenKind?.isSome → d.kind.tokenKind?.isSome → c.location < d.location
  disjoint : t.components.Pairwise fun c d =>
    c.kind.tokenKind?.isSome → d.kind.tokenKind?.isSome →
      ∀ span, s.tokenSpan c.location = .ok span → span.stop ≤ d.location
  root : t.components[0]? = some ⟨.ruleList, s.location, 0⟩
  list : ∀ c ∈ t.components, c.kind = .ruleList → c.location = s.location
  rule : ∀ (i : ℕ) (c : Component), t.components[i]? = some c → c.kind = .qualifiedRule →
    ∃ d, t.components[i + 1]? = some d ∧ d.location = c.location
  /-- The walk through the tree visits every component, at the depth of those that own it. -/
  walk : t.preorder 0 =
    .ok ((List.range t.components.length).map fun i => (i, depthAt t.skips i))
  dump : ∀ place, ∃ lines, t.dump ⟨s.text, place⟩ = .ok lines.flatten ∧
    List.Forall₂ (fun i line => ∃ c, t.components[i]? = some c ∧
      c.Prints s (depthAt t.skips i) line) (List.range t.components.length) lines

lemma exists_tokenKind_of_leaf {k : ComponentKind} (h : k.isComposite = false) :
    ∃ kind, k.tokenKind? = some kind := by
  cases k <;> first | exact ⟨_, rfl⟩ | cases h

lemma exists_mapM {ε α β : Type} {f : α → Except ε β} {R : α → β → Prop} {as : List α}
    (h : ∀ a ∈ as, ∃ b, f a = .ok b ∧ R a b) :
    ∃ bs, as.mapM f = .ok bs ∧ List.Forall₂ R as bs := by
  induction as with
  | nil => exact ⟨[], rfl, .nil⟩
  | cons a as ih =>
    obtain ⟨b, hb, hrel⟩ := h a List.mem_cons_self
    obtain ⟨bs, hbs, hall⟩ := ih fun a' ha' => h a' (List.mem_cons_of_mem a ha')
    refine ⟨b :: bs, ?_, .cons hrel hall⟩
    rw [List.mapM_cons, hb, ok_bind, hbs, ok_bind]
    rfl

namespace Component

variable {s : Source} {c : Component} {u : Token}

lemma leafText?_eq (hu : u ∈ s.tokens) (hstart : u.start = c.location)
    (hleaf : c.kind.isComposite = false) (place : ℕ) :
    c.leafText? ⟨s.text, place⟩ = .ok (some ((s.text.drop u.start).take u.span.length)) := by
  have hstands := Source.standsIn_of_mem_tokens hu
  have hat := Source.tokenAt_of_standsIn (s := ⟨s.text, place⟩) hstands
  have hstop : u.stop ≤ s.text.length := by
    have hle := Source.token_stop_le (s := ⟨s.text, u.start⟩) (Nat.le_of_lt hstands.1)
    rwa [hstands.2] at hle
  have hlength : u.stop - u.start = u.span.length := Nat.add_sub_cancel_left _ _
  unfold leafText?
  rw [if_neg (by simp [hleaf]), ← hstart, hat, ok_bind, Source.slice,
    if_pos ⟨Nat.le_add_right _ _, hstop⟩, hlength]
  rfl

lemma exists_prints (htoken : ∀ kind, c.kind.tokenKind? = some kind →
      ∃ u ∈ s.tokens, u.kind = kind ∧ u.start = c.location) (place depth : ℕ) :
    ∃ text, c.leafText? ⟨s.text, place⟩ = .ok text ∧ c.Prints s depth (c.line depth text) := by
  rcases hleaf : c.kind.isComposite with _ | _
  · obtain ⟨kind, hkind⟩ := exists_tokenKind_of_leaf hleaf
    obtain ⟨u, hu, rfl, hstart⟩ := htoken kind hkind
    exact ⟨_, leafText?_eq hu hstart hleaf place, .leaf u hu hleaf hkind hstart rfl
      (c.line_some depth _) (c.unquote_line depth _)⟩
  · refine ⟨none, ?_, c.line_none depth ▸ .composite hleaf⟩
    unfold leafText?
    rw [if_pos hleaf]
    rfl

end Component

namespace ComponentTree

variable {t : ComponentTree} {s : Source}

lemma exists_dump
    (hwalk : t.preorder 0 =
      .ok ((List.range t.components.length).map fun i => (i, depthAt t.skips i)))
    (htoken : ∀ c ∈ t.components, ∀ kind, c.kind.tokenKind? = some kind →
      ∃ u ∈ s.tokens, u.kind = kind ∧ u.start = c.location) (place : ℕ) :
    ∃ lines, t.dump ⟨s.text, place⟩ = .ok lines.flatten ∧
      List.Forall₂ (fun i line => ∃ c, t.components[i]? = some c ∧
        c.Prints s (depthAt t.skips i) line) (List.range t.components.length) lines := by
  have hline : ∀ i ∈ List.range t.components.length, ∃ line,
      t.dumpLine ⟨s.text, place⟩ i (depthAt t.skips i) = .ok line ∧
        ∃ c, t.components[i]? = some c ∧ c.Prints s (depthAt t.skips i) line := by
    intro i hi
    obtain ⟨c, hc⟩ : ∃ c, t.components[i]? = some c :=
      ⟨_, List.getElem?_eq_getElem (List.mem_range.mp hi)⟩
    obtain ⟨text, htext, hprints⟩ := Component.exists_prints
      (htoken c (List.mem_of_getElem? hc)) place (depthAt t.skips i)
    refine ⟨_, ?_, c, hc, hprints⟩
    rw [dumpLine, t.get_of_getElem? hc, mapError_ok, ok_bind, htext, mapError_ok, ok_bind]
    rfl
  obtain ⟨lines, hlines, hall⟩ := exists_mapM hline
  refine ⟨lines, ?_, hall⟩
  rw [dump, hwalk, mapError_ok, ok_bind, List.mapM_map]
  change (List.mapM (fun i => t.dumpLine ⟨s.text, place⟩ i (depthAt t.skips i)) _ >>= _) = _
  rw [hlines]
  rfl

end ComponentTree

namespace Sheet

variable {sheet : Sheet} {start i : ℕ} {c : Component}

lemma components_componentTree (sheet : Sheet) (start : ℕ) :
    (sheet.componentTree start).components =
      ⟨.ruleList, start, 0⟩ :: components sheet.rules := rfl

lemma next_component {u child : Rose Component} {more : List (Rose Component)}
    (h : (sheet.tree start).subtrees[i]? = some u) (hchildren : u.children = child :: more) :
    (sheet.componentTree start).components[i + 1]? = some child.value := by
  have hall : (subtreesAll [sheet.tree start])[i]? = some u := by simpa using h
  obtain ⟨rest, hrest⟩ := drop_children hall
  rw [hchildren, layouts_cons, layouts_nil, List.append_nil, layouts_cons, layout_eq_map child,
    subtrees_eq] at hrest
  apply components_of_slot
  rw [← List.head?_drop, hrest]
  rfl

lemma preorder_eq (hcap : (sheet.tree start).size ≤ componentCapacity) :
    (sheet.componentTree start).preorder 0 =
      .ok ((List.range (sheet.componentTree start).components.length).map fun i =>
        (i, depthAt (sheet.componentTree start).skips i)) := by
  have hroot : (subtreesAll [sheet.tree start])[0]? = some (sheet.tree start) := rfl
  have hwalk := @preorder_layouts _ componentCapacity _ _ _ hroot (by simpa using hcap)
  have hlength : (sheet.componentTree start).components.length = (sheet.tree start).size := by
    change ((sheet.tree start).layout.map Slot.value).length = _
    rw [List.length_map, length_layout]
  rw [layouts_cons, layouts_nil, List.append_nil, depths_eq, ← List.range_eq_range',
    ← List.map_prod_left_eq_zip, ← hlength] at hwalk
  exact hwalk

end Sheet

namespace Source

variable (s : Source) (list : ListKind)

/-- **The components of a sheet** start with tokens of the text, in their order. -/
lemma anchored_sheet : Anchored ((s.sheet list).componentTree s.location).components s.tokens := by
  have hrules := @anchored_rules list s.material fun _ => isMaterial_of_mem
  rw [Sheet.components_componentTree]
  exact .skip rfl (hrules.mono List.filter_sublist)

variable {s list} in
lemma location_next {i : ℕ} {c : Component}
    (hc : ((s.sheet list).componentTree s.location).components[i]? = some c)
    (hkind : c.kind = .qualifiedRule) :
    ∃ d, ((s.sheet list).componentTree s.location).components[i + 1]? = some d ∧
      d.location = c.location := by
  obtain ⟨u, hu, rfl⟩ := Sheet.exists_node hc
  obtain ⟨-, hrule⟩ := Sheet.mem_rules_of_isRule (isRule_of_mem list s.material) hu
    (by rw [hkind]; rfl)
  obtain ⟨child, more, hchildren, hlocation⟩ := first_of_mem_rules u hrule hkind
  exact ⟨child.value, Sheet.next_component hu hchildren, hlocation⟩

lemma points_componentTree (hcap : ((s.sheet list).tree s.location).size ≤ componentCapacity) :
    ((s.sheet list).componentTree s.location).Points s := by
  have hanchored := s.anchored_sheet list
  have hwalk := Sheet.preorder_eq hcap
  have hshaped := Sheet.shaped_componentTree (isRule_of_mem list s.material) hcap
  refine ⟨fun c hc kind => hanchored.exists_span hc, hanchored.pairwise, hanchored.disjoint, rfl,
    ?_, fun i c => location_next, hwalk,
    ComponentTree.exists_dump hwalk fun c hc _ => hanchored.exists_token hc⟩
  intro c hc hkind
  obtain ⟨i, hi⟩ := List.mem_iff_getElem?.mp hc
  obtain rfl := (hshaped.list i c hi).mp hkind
  obtain rfl := Option.some.inj hi
  rfl

/-- **Every component points at its token**, whatever the text, the place to start at and the kind
of list; so the tree can be listed, with the text of its leaves. Only a text too long for its tree
to be counted in a word has none. -/
theorem components_point_at_tokens :
    match s.parse list with
    | .ok p => p.tree.Points s
    | .error e => e = .overflow componentCapacity ∧
        componentCapacity < s.text.length - s.location + 2 := by
  rcases hparse : s.parse list with e | p
  · exact overflow_of_parse hparse
  · obtain ⟨hroom, rfl⟩ := parse_eq_ok_iff.mp hparse
    refine s.points_componentTree list ?_
    have hsize : ((s.sheet list).tree s.location).size = 1 + sizes (s.sheet list).rules := rfl
    rw [Sheet.written] at hroom
    omega

end Source

end Stylesheet
