import Mathlib.Data.List.Forall2
import Stylesheet.Proofs.Refinement

/-!
The tokens that a tree stands for. Every slot starts with a token, except for lists and qualified
rules, and blocks, functions and at-rules without a block end with one. When nothing is left open
in a text, the tokens of its tree are the tokens of the text, in their order, less the comments and
what the list ignores between its rules.
-/

namespace Stylesheet

open Rose

/-- A token as it follows from a tree: its kind, and its place unless it only closes something. -/
structure Mark where
  kind : TokenKind
  place : Option ℕ
  deriving DecidableEq

/-- The mark fits a token. -/
def Mark.Spells (m : Mark) (t : Token) : Prop := m.kind = t.kind ∧ ∀ l ∈ m.place, l = t.start

namespace Component

variable (c : Component)

def opening : List Mark := (c.kind.tokenKind?.map fun k => ⟨k, some c.location⟩).toList

/-- The token that closes a component. An at-rule without a block ends with a semicolon. -/
def closing : List Mark :=
  match c.kind with
  | .curlyBlock => [⟨.rightBrace, none⟩]
  | .squareBlock => [⟨.rightBracket, none⟩]
  | .roundBlock => [⟨.rightParen, none⟩]
  | .function => [⟨.rightParen, none⟩]
  | .atRule => if c.extra = 0 then [⟨.semicolon, none⟩] else []
  | _ => []

end Component

/-- The tokens of the slots from `index` on. The subtrees that are still open are `pending`,
innermost first, each with where it ends and with what closes it. -/
def linearFrom (index : ℕ) (pending : List (ℕ × List Mark)) : List (Slot Component) → List Mark
  | [] => pending.flatMap Prod.snd
  | slot :: slots =>
    (pending.takeWhile fun p => p.1 ≤ index).flatMap Prod.snd ++ slot.value.opening ++
      linearFrom (index + 1)
        ((index + slot.skip, slot.value.closing) :: pending.dropWhile fun p => p.1 ≤ index) slots

def SkipTree.linear {cap : ℕ} (t : SkipTree cap Component) : List Mark := linearFrom 0 [] t.slots

/-! ### The flat form and the tree -/

namespace Rose

mutual

/-- The tokens of a tree: those of the subtrees between its first and its last. -/
def marks : Rose Component → List Mark
  | .node c ts => c.opening ++ marksAll ts ++ c.closing

def marksAll : List (Rose Component) → List Mark
  | [] => []
  | t :: ts => t.marks ++ marksAll ts

end

@[simp] lemma marks_node (c : Component) (ts : List (Rose Component)) :
    (node c ts).marks = c.opening ++ marksAll ts ++ c.closing := rfl
@[simp] lemma marksAll_nil : marksAll [] = [] := rfl
@[simp] lemma marksAll_cons (t : Rose Component) (ts : List (Rose Component)) :
    marksAll (t :: ts) = t.marks ++ marksAll ts := rfl

@[simp] lemma marksAll_append (ts us : List (Rose Component)) :
    marksAll (ts ++ us) = marksAll ts ++ marksAll us := by
  induction ts with
  | nil => rfl
  | cons t ts ih => simp [ih]

lemma marksAll_eq_flatten (ts : List (Rose Component)) : marksAll ts = (ts.map marks).flatten := by
  induction ts with
  | nil => rfl
  | cons t ts ih => simp [ih]

end Rose

lemma linearFrom_pending {index stop : ℕ} (h : stop ≤ index) (ms : List Mark)
    (pending : List (ℕ × List Mark)) (slots : List (Slot Component)) :
    linearFrom index ((stop, ms) :: pending) slots = ms ++ linearFrom index pending slots := by
  cases slots with
  | nil => simp [linearFrom]
  | cons slot slots => simp [linearFrom, h]

lemma linearFrom_cons {index : ℕ} {pending : List (ℕ × List Mark)}
    (h : ∀ p ∈ pending, index < p.1) (slot : Slot Component) (slots : List (Slot Component)) :
    linearFrom index pending (slot :: slots) = slot.value.opening ++
      linearFrom (index + 1) ((index + slot.skip, slot.value.closing) :: pending) slots := by
  cases pending with
  | nil => simp [linearFrom]
  | cons p pending =>
    have hp : ¬ p.1 ≤ index := Nat.not_le.mpr (h p (by simp))
    simp [linearFrom, hp]

/-- In the subtrees that are open around it, a forest gives its own tokens. -/
lemma linearFrom_layouts (ts : List (Rose Component)) (index : ℕ) (pending : List (ℕ × List Mark))
    (h : ∀ p ∈ pending, index + sizes ts ≤ p.1) (slots : List (Slot Component)) :
    linearFrom index pending (layouts ts ++ slots) =
      marksAll ts ++ linearFrom (index + sizes ts) pending slots := by
  induction ts using forest_induction generalizing index pending slots with
  | nil => rfl
  | cons c ts us ihts ihus =>
    simp only [sizes_cons, size_node] at h
    have hinner : ∀ p ∈ (index + (1 + sizes ts), c.closing) :: pending,
        index + 1 + sizes ts ≤ p.1 := by
      intro p hp
      rcases List.mem_cons.mp hp with rfl | hp
      · omega
      · have := h p hp
        omega
    have houter : ∀ p ∈ pending, index + 1 + sizes ts + sizes us ≤ p.1 := by
      intro p hp
      have := h p hp
      omega
    have hfirst : ∀ p ∈ pending, index < p.1 := by
      intro p hp
      have := h p hp
      omega
    rw [layouts_cons, layout_node, List.cons_append, List.cons_append, List.append_assoc,
      linearFrom_cons hfirst, ihts _ _ hinner, linearFrom_pending (by omega), ihus _ _ houter]
    simp only [marksAll_cons, marks_node, sizes_cons, size_node, List.append_assoc]
    rw [show index + 1 + sizes ts + sizes us = index + (1 + sizes ts + sizes us) by omega]

/-- **The tokens of the flat form** are those of the tree. -/
theorem linear_layout {cap : ℕ} (t : Rose Component) :
    SkipTree.linear (⟨t.layout⟩ : SkipTree cap Component) = t.marks := by
  have h := linearFrom_layouts [t] 0 [] (by simp) []
  simpa [SkipTree.linear, linearFrom] using h

/-! ### Values -/

/-- Marks fit a run of tokens one by one. -/
abbrev Spell (ms : List Mark) (ts : List Token) : Prop := List.Forall₂ Mark.Spells ms ts

lemma spells_opening {t : Token} {kind : ComponentKind} {extra : ℕ}
    (h : kind.tokenKind? = some t.kind) :
    Spell (Component.opening ⟨kind, t.start, extra⟩) [t] := by
  simp only [Component.opening, h, Option.map_some, Option.toList_some]
  exact .cons ⟨rfl, by simp⟩ .nil

lemma spells_closing {c : Token} {kind : TokenKind} (h : c.kind = kind) :
    Spell [⟨kind, none⟩] [c] := .cons ⟨h.symm, by simp⟩ .nil

lemma tokenKind_block {k : TokenKind} {bracket : Bracket} (h : Bracket.ofOpener? k = some bracket) :
    bracket.block.tokenKind? = some k := by
  cases k <;> simp [Bracket.ofOpener?] at h <;> subst h <;> rfl

lemma closing_block (bracket : Bracket) (location : ℕ) :
    Component.closing ⟨bracket.block, location, 0⟩ = [⟨bracket.closer, none⟩] := by
  cases bracket <;> rfl

lemma closing_leaf {k : TokenKind} {kind : ComponentKind} (h : ComponentKind.ofToken? k = some kind)
    (location : ℕ) : Component.closing ⟨kind, location, 0⟩ = [] := by
  cases k <;> simp [ComponentKind.ofToken?] at h <;> subst h <;> rfl

lemma spells_leaf {t : Token} (ht : t.IsMaterial) (ho : Bracket.ofOpener? t.kind = none)
    (hf : t.kind ≠ .function) : Spell t.leaf.marks [t] := by
  obtain ⟨kind, hk⟩ := Machine.exists_leaf ht ho hf
  rw [Token.leaf, hk, Option.getD_some, marks_node, closing_leaf hk, marksAll_nil, List.append_nil,
    List.append_nil]
  exact spells_opening (ComponentKind.tokenKind?_of_ofToken? hk)

lemma spells_node {t c : Token} {run : List Token} {kind : ComponentKind} {closer : TokenKind}
    {ts : List (Rose Component)} (hopen : kind.tokenKind? = some t.kind)
    (hclosing : Component.closing ⟨kind, t.start, 0⟩ = [⟨closer, none⟩]) (hc : c.kind = closer)
    (hrun : Spell (marksAll ts) run) :
    Spell (node ⟨kind, t.start, 0⟩ ts).marks (t :: (run ++ [c])) := by
  rw [marks_node, hclosing, List.append_assoc]
  exact List.rel_append (spells_opening hopen) (List.rel_append hrun (spells_closing hc))

/-- If nothing is left open in them, values have the tokens that are consumed for them. -/
lemma spells_consume :
    (∀ t ts, t.IsMaterial → (∀ u ∈ ts, u.IsMaterial) → (consumeValue t ts).findings = [] →
      ∃ run, ts = run ++ (consumeValue t ts).rest ∧
        Spell (consumeValue t ts).made.marks (t :: run)) ∧
      ∀ closer unclosed ts, (∀ u ∈ ts, u.IsMaterial) →
        (consumeValues closer unclosed ts).findings = [] →
        ∃ run c, ts = run ++ c :: (consumeValues closer unclosed ts).rest ∧ c.kind = closer ∧
          Spell (marksAll (consumeValues closer unclosed ts).made) run := by
  refine consume_induction ?_ ?_ ?_ ?_ ?_ ?_
  · intro t ts ho hf ht hts hnone
    rw [consumeValue_leaf ho hf]
    exact ⟨[], rfl, spells_leaf ht ho hf⟩
  · intro t ts bracket ho ih ht hts hnone
    rw [consumeValue_opener ho, consumeBlock] at hnone ⊢
    obtain ⟨run, c, hsplit, hc, hrun⟩ := ih hts hnone
    refine ⟨run ++ [c], ?_, ?_⟩
    · rw [List.append_assoc]
      exact hsplit
    · exact spells_node (tokenKind_block ho) (closing_block bracket t.start) hc hrun
  · intro t ts hf ih ht hts hnone
    rw [consumeValue_function hf, consumeFunction] at hnone ⊢
    obtain ⟨run, c, hsplit, hc, hrun⟩ := ih hts hnone
    refine ⟨run ++ [c], ?_, ?_⟩
    · rw [List.append_assoc]
      exact hsplit
    · exact spells_node (by rw [hf]; rfl) rfl hc hrun
  · intro closer unclosed hts hnone
    simp [consumeValues_nil] at hnone
  · intro closer unclosed t ts hc hts hnone
    rw [consumeValues_close hc]
    exact ⟨[], t, rfl, hc, .nil⟩
  · intro closer unclosed t ts hc ihv ihw hts hnone
    rw [consumeValues_cons hc] at hnone ⊢
    obtain ⟨hvalue, hvalues⟩ := List.append_eq_nil_iff.mp hnone
    have hts' : ∀ u ∈ ts, u.IsMaterial := fun u hu => hts u (by simp [hu])
    obtain ⟨run, hsplit, hrun⟩ := ihv (hts t (by simp)) hts' hvalue
    obtain ⟨more, c, hmore, hc', hspell⟩ :=
      ihw (fun u hu => hts' u ((consumeValue t ts).last.subset hu)) hvalues
    refine ⟨t :: run ++ more, c, ?_, hc', List.rel_append hrun hspell⟩
    rw [List.append_assoc, ← hmore, List.cons_append, ← hsplit]

/-! ### Rules -/

lemma spells_prelude {semicolonEnds : Bool} {ts : List Token} (hts : ∀ u ∈ ts, u.IsMaterial)
    (hnone : (consumePrelude semicolonEnds ts).findings = [])
    (hend : (consumePrelude semicolonEnds ts).made.ending ≠ .endOfText) :
    ∃ run c, ts = run ++ c :: (consumePrelude semicolonEnds ts).rest ∧
      Spell (marksAll (consumePrelude semicolonEnds ts).made.values) run ∧
      ((consumePrelude semicolonEnds ts).made.ending = .semicolon ∧ semicolonEnds ∧
          c.kind = .semicolon ∨
        (consumePrelude semicolonEnds ts).made.ending = .brace c ∧ c.kind = .leftBrace) := by
  fun_induction consumePrelude semicolonEnds ts with
  | case1 => exact absurd rfl hend
  | case2 t ts hs => exact ⟨[], t, rfl, .nil, .inl ⟨rfl, hs⟩⟩
  | case3 t ts hs hb => exact ⟨[], t, rfl, .nil, .inr ⟨rfl, hb⟩⟩
  | case4 t ts hs hb value more ih =>
    obtain ⟨hvalue, hmore⟩ := List.append_eq_nil_iff.mp hnone
    have hts' : ∀ u ∈ ts, u.IsMaterial := fun u hu => hts u (by simp [hu])
    obtain ⟨run, hsplit, hrun⟩ := spells_consume.1 t ts (hts t (by simp)) hts' hvalue
    obtain ⟨body, c, hbody, hspell, hlast⟩ :=
      ih (fun u hu => hts' u (value.last.subset hu)) hmore hend
    refine ⟨t :: run ++ body, c, ?_, List.rel_append hrun hspell, hlast⟩
    have hvalue : value.rest = body ++ c :: more.rest := hbody
    rw [List.append_assoc, ← hvalue, List.cons_append, ← hsplit]

lemma spells_parts {semicolonEnds : Bool} {unfinished : Finding} {ts : List Token}
    (hts : ∀ u ∈ ts, u.IsMaterial)
    (hnone : (consumeParts semicolonEnds unfinished ts).findings = []) :
    ∃ run, ts = run ++ (consumeParts semicolonEnds unfinished ts).rest ∧
      ((semicolonEnds ∧ (consumeParts semicolonEnds unfinished ts).made.block = none ∧
          Spell (marksAll (consumeParts semicolonEnds unfinished ts).made.values ++
            [⟨.semicolon, none⟩]) run) ∨
        ∃ block, (consumeParts semicolonEnds unfinished ts).made.block = some block ∧
          Spell (marksAll (consumeParts semicolonEnds unfinished ts).made.values ++ block.marks)
            run) := by
  have hprelude := @spells_prelude semicolonEnds ts hts
  rw [consumeParts] at hnone ⊢
  rcases hend : (consumePrelude semicolonEnds ts).made.ending with _ | opening | _
  all_goals simp only [hend] at hnone hprelude ⊢
  · obtain ⟨run, c, hsplit, hspell, ⟨-, hs, hc⟩ | ⟨hbrace, -⟩⟩ := hprelude hnone (by simp)
    · refine ⟨run ++ [c], by rw [List.append_assoc]; exact hsplit, .inl ⟨hs, trivial, ?_⟩⟩
      exact List.rel_append hspell (spells_closing hc)
    · cases hbrace
  · obtain ⟨hvalues, hblock⟩ := List.append_eq_nil_iff.mp hnone
    obtain ⟨run, c, hsplit, hspell, ⟨hsemicolon, -, -⟩ | ⟨hbrace, hc⟩⟩ := hprelude hvalues (by simp)
    · cases hsemicolon
    · cases hbrace
      have hvalue : consumeValue opening (consumePrelude semicolonEnds ts).rest =
          consumeBlock opening .curly (consumePrelude semicolonEnds ts).rest :=
        consumeValue_opener (by rw [hc]; rfl)
      have hmem : ∀ u ∈ opening :: (consumePrelude semicolonEnds ts).rest, u ∈ ts := by
        intro u hu
        rw [hsplit]
        exact List.mem_append_right _ hu
      have hconsume := spells_consume.1 opening (consumePrelude semicolonEnds ts).rest
        (hts _ (hmem _ (by simp))) (fun u hu => hts u (hmem u (by simp [hu])))
      rw [hvalue] at hconsume
      obtain ⟨inner, hinner, hblocks⟩ := hconsume hblock
      refine ⟨run ++ opening :: inner, ?_, .inr ⟨_, rfl, List.rel_append hspell hblocks⟩⟩
      rw [List.append_assoc, List.cons_append, ← hinner]
      exact hsplit
  · simp at hnone

lemma spells_atRule {t : Token} {ts : List Token} (hkind : t.kind = .atKeyword)
    (hts : ∀ u ∈ ts, u.IsMaterial) (hnone : (consumeAtRule t ts).findings = []) :
    ∃ run, ts = run ++ (consumeAtRule t ts).rest ∧
      Spell (consumeAtRule t ts).made.marks (t :: run) := by
  rw [consumeAtRule] at hnone ⊢
  obtain ⟨run, hsplit, hrun⟩ := spells_parts hts hnone
  have hopen : ∀ extra, Spell (Component.opening ⟨.atRule, t.start, extra⟩) [t] := fun extra =>
    spells_opening (by rw [hkind]; rfl)
  refine ⟨run, hsplit, ?_⟩
  rcases hrun with ⟨-, hblock, hspell⟩ | ⟨block, hblock, hspell⟩
  · simp only [RuleParts.tree, hblock, marks_node, List.append_assoc]
    exact List.rel_append (hopen 0) hspell
  · -- a rule with a block says where it is, so no semicolon closes it
    have hclosing : ∀ n, Component.closing ⟨.atRule, t.start, 1 + n⟩ = [] := by
      intro n
      simp only [Component.closing]
      rw [if_neg (by omega)]
    simp only [RuleParts.tree, hblock, marks_node, hclosing, List.append_nil, marksAll_append,
      marksAll_cons, marksAll_nil]
    exact List.rel_append (hopen _) hspell

lemma spells_qualifiedRule {t : Token} {ts : List Token} (hts : ∀ u ∈ t :: ts, u.IsMaterial)
    (hnone : (consumeQualifiedRule t ts).findings = []) :
    (consumeQualifiedRule t ts).made.block.isSome ∧
      ∃ run, t :: ts = run ++ (consumeQualifiedRule t ts).rest ∧
        Spell ((consumeQualifiedRule t ts).made.tree .qualifiedRule t.start).marks run := by
  rw [consumeQualifiedRule] at hnone ⊢
  obtain ⟨run, hsplit, ⟨hfalse, -⟩ | ⟨block, hblock, hspell⟩⟩ := spells_parts hts hnone
  · cases hfalse
  · refine ⟨by rw [hblock]; rfl, run, hsplit, ?_⟩
    simp only [RuleParts.tree, hblock, marks_node, marksAll_append, marksAll_cons, marksAll_nil,
      List.append_nil]
    simpa [Component.opening, Component.closing, ComponentKind.tokenKind?] using hspell

/-- Tokens in runs, with what the list ignores before, between and behind them. A run starts with
a token that is not ignored. -/
inductive Interleaves (list : ListKind) : List (List Token) → List Token → Prop
  | nil : Interleaves list [] []
  | gap {runs : List (List Token)} {ts : List Token} (t : Token) (ht : list.ignores t.kind)
      (h : Interleaves list runs ts) : Interleaves list runs (t :: ts)
  | run {runs : List (List Token)} {ts : List Token} (t : Token) (ht : ¬ list.ignores t.kind)
      (run : List Token) (h : Interleaves list runs ts) :
      Interleaves list ((t :: run) :: runs) (t :: (run ++ ts))

/-- **Rules and runs**: if nothing is left open, every rule has a run of the tokens, and between
the runs there is nothing but what the list ignores. -/
theorem spells_rules {list : ListKind} {ts : List Token} (hts : ∀ u ∈ ts, u.IsMaterial)
    (hnone : (consumeRules list ts).findings = []) :
    ∃ runs, Interleaves list runs ts ∧
      List.Forall₂ (fun rule run => Spell (Rose.marks rule) run) (consumeRules list ts).rules
        runs := by
  fun_induction consumeRules list ts with
  | case1 => exact ⟨[], .nil, .nil⟩
  | case2 t ts hi ih =>
    obtain ⟨runs, hruns, hspell⟩ := ih (fun u hu => hts u (by simp [hu])) hnone
    exact ⟨runs, .gap t hi hruns, hspell⟩
  | case3 t ts hi ha rule more ih =>
    obtain ⟨hrule, hmore⟩ := List.append_eq_nil_iff.mp hnone
    have hts' : ∀ u ∈ ts, u.IsMaterial := fun u hu => hts u (by simp [hu])
    obtain ⟨run, hsplit, hrun⟩ := spells_atRule ha hts' hrule
    obtain ⟨runs, hruns, hspell⟩ := ih (fun u hu => hts' u (rule.last.subset hu)) hmore
    refine ⟨(t :: run) :: runs, ?_, .cons hrun hspell⟩
    have hts_eq : ts = run ++ rule.rest := hsplit
    rw [hts_eq]
    exact .run t hi run hruns
  | case4 t ts hi ha rule more tree hb ih =>
    obtain ⟨hrule, hmore⟩ := List.append_eq_nil_iff.mp hnone
    obtain ⟨-, run, hsplit, hrun⟩ := spells_qualifiedRule hts hrule
    obtain ⟨runs, hruns, hspell⟩ := ih (fun u hu => hts u (by simp [rule.last.subset hu])) hmore
    have hts_eq : t :: ts = run ++ rule.rest := hsplit
    rcases run with _ | ⟨u, run⟩
    · -- a rule consumes its first token
      have hlen := rule.last.length_le
      rw [List.nil_append] at hts_eq
      rw [← hts_eq, List.length_cons] at hlen
      omega
    · obtain ⟨rfl, htail⟩ := List.cons.inj hts_eq
      refine ⟨(t :: run) :: runs, ?_, .cons hrun hspell⟩
      rw [htail]
      exact .run t hi run hruns
  | case5 t ts hi ha rule more tree hb ih =>
    obtain ⟨hrule, -⟩ := List.append_eq_nil_iff.mp hnone
    exact absurd (spells_qualifiedRule hts hrule).1 hb

namespace Source

/-- **No token is lost**, added or moved: if a parse finds no problem of structure, the tokens of
its tree are those of the text without the comments and without what the list ignores between its
rules; each rule has a run of them. -/
theorem tree_keeps_tokens (s : Source) (list : ListKind) (p : Parse) (hparse : s.parse list = .ok p)
    (hclosed : ∀ f ∈ p.findings, ¬ f.isStructural) :
    ∃ (rules : List (Rose Component)) (runs : List (List Token)),
      p.tree.tree.slots = (node ⟨.ruleList, s.location, 0⟩ rules).layout ∧
        Interleaves list runs (s.tokens.filter fun t => t.kind ≠ .comments) ∧
        List.Forall₂ (fun rule run => List.Forall₂ Mark.Spells (Rose.marks rule) run) rules runs ∧
        List.Forall₂ Mark.Spells p.tree.tree.linear runs.flatten := by
  rw [parse_eq_reserve, reserve] at hparse
  split_ifs at hparse with hroom
  obtain rfl := Except.ok.inj hparse
  have hnone : (s.sheet list).findings = [] := by
    have hperm := structural_problems s list
    rw [List.filter_eq_nil_iff.mpr hclosed] at hperm
    exact hperm.nil_eq.symm
  obtain ⟨runs, hruns, hspell⟩ :=
    @spells_rules list s.material (fun _ => isMaterial_of_mem) hnone
  refine ⟨(s.sheet list).rules, runs, rfl, hruns, hspell, ?_⟩
  have hlinear : ((s.sheet list).componentTree s.location).tree.linear =
      ((s.sheet list).rules.map Rose.marks).flatten := by
    rw [← marksAll_eq_flatten]
    exact (linear_layout _).trans (List.append_nil _)
  rw [hlinear]
  exact List.rel_flatten (List.forall₂_map_left_iff.mpr hspell)

/-- A comment before the first rule, a semicolon at its end, a space between the rules, a block in
a prelude and a semicolon in a function. -/
def twoRules : Source :=
  ⟨['/', '*', '*', '/', '@', 'a', ';', ' ', 'c', '[', 'd', ']', '{', 'f', '(', ';', ')', '}'], 0⟩

theorem tree_keeps_tokens_twoRules :
    ∃ p, twoRules.parse .topLevel = .ok p ∧ (∀ f ∈ p.findings, ¬ f.isStructural) ∧
      ∃ (rules : List (Rose Component)) (runs : List (List Token)),
        p.tree.tree.slots = (node ⟨.ruleList, 0, 0⟩ rules).layout ∧
          Interleaves .topLevel runs (twoRules.tokens.filter fun t => t.kind ≠ .comments) ∧
          List.Forall₂ (fun rule run => List.Forall₂ Mark.Spells (Rose.marks rule) run) rules runs ∧
          List.Forall₂ Mark.Spells p.tree.tree.linear runs.flatten := by
  have hfindings : (twoRules.parse .topLevel).map Parse.findings = .ok [] := by decide
  rcases hparse : twoRules.parse .topLevel with e | p
  · rw [hparse] at hfindings
    cases hfindings
  · rw [hparse] at hfindings
    have hnone : p.findings = [] := Except.ok.inj hfindings
    have hclosed : ∀ f ∈ p.findings, ¬ f.isStructural := by simp [hnone]
    exact ⟨p, rfl, hclosed, tree_keeps_tokens twoRules .topLevel p hparse hclosed⟩

end Source

end Stylesheet
