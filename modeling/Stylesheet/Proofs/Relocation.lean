import Mathlib.Order.Monotone.Basic
import Stylesheet.Proofs.Report

/-!
Tokens at other places. The structure that tokens make depends on their kinds only; where they stand
is passed on to the components and the problems. So tokens that are moved make the same tree with
its places moved, and problems keep their order as long as the places keep theirs. Tokens may get
longer or shorter on the way: a motion says for whole stretches where they go.
-/

namespace Stylesheet

variable (σ : ℕ → ℕ)

/-- The stretch as long as before that starts where `σ` says. -/
def Span.relocate (r : Span) : Span := ⟨σ r.start, r.length⟩

def Token.relocate (t : Token) : Token := { t with span := t.span.relocate σ }

def LexError.relocate (e : LexError) : LexError := { e with location := σ e.location }

def Component.relocate (c : Component) : Component := { c with location := σ c.location }

def Finding.relocate (f : Finding) : Finding := { f with span := f.span.relocate σ }

/-- How the stretches of a text move: each starts where its start goes. -/
structure Motion where
  place : ℕ → ℕ
  span : Span → Span
  start : ∀ r, (span r).start = place r.start

/-- Stretches stay as long as they are. -/
def Motion.rigid : Motion := ⟨σ, Span.relocate σ, fun _ => rfl⟩

def Token.move (μ : Motion) (t : Token) : Token := { t with span := μ.span t.span }

def Finding.move (μ : Motion) (f : Finding) : Finding := { f with span := μ.span f.span }

@[simp] lemma Token.relocate_start (t : Token) : (t.relocate σ).start = σ t.start := rfl

lemma Token.move_start (μ : Motion) (t : Token) : (t.move μ).start = μ.place t.start :=
  μ.start t.span

lemma Token.relocate_congr {σ τ : ℕ → ℕ} {t : Token} (h : σ t.start = τ t.start) :
    t.relocate σ = t.relocate τ :=
  congrArg (fun n => (⟨t.kind, ⟨n, t.span.length⟩, t.error⟩ : Token)) h

lemma Token.lexError?_move (μ : Motion) (t : Token) :
    (t.move μ).lexError? = t.lexError?.map (LexError.relocate μ.place) := by
  rw [lexError?, lexError?, Option.map_map, t.move_start]
  rfl

lemma Token.lexError?_relocate (t : Token) :
    (t.relocate σ).lexError? = t.lexError?.map (LexError.relocate σ) :=
  t.lexError?_move (.rigid σ)

lemma Token.finding?_move (μ : Motion) (t : Token) :
    (t.move μ).finding? = t.finding?.map (Finding.move μ) := by
  rw [finding?, finding?, Option.map_map]
  rfl

lemma filterMap_finding?_move (μ : Motion) (ts : List Token) :
    (ts.map (Token.move μ)).filterMap Token.finding? =
      (ts.filterMap Token.finding?).map (Finding.move μ) := by
  rw [List.filterMap_map, List.map_filterMap]
  exact List.filterMap_congr fun t _ => t.finding?_move μ

lemma filterMap_finding?_relocate (ts : List Token) :
    (ts.map (Token.relocate σ)).filterMap Token.finding? =
      (ts.filterMap Token.finding?).map (Finding.relocate σ) :=
  filterMap_finding?_move (.rigid σ) ts

/-! ### The same text further on -/

lemma placed_add (d location : ℕ) (ps : List Text.CodePoint) (ls : List Lexeme) :
    placed (location + d) ps ls = (placed location ps ls).map (Token.relocate (· + d)) := by
  induction ls generalizing location ps with
  | nil => rfl
  | cons l ls ih =>
    have hstop : (l.token (location + d) ps).stop = (l.token location ps).stop + d :=
      Nat.add_right_comm _ _ _
    simp only [placed, List.map_cons, hstop, ih]
    rfl

lemma Source.tokens_add {s s' : Source} {d : ℕ} (hlocation : s'.location = s.location + d)
    (hahead : s'.ahead = s.ahead) : s'.tokens = s.tokens.map (Token.relocate (· + d)) := by
  have hrest : s'.rest = s.rest := congrArg Text.chars hahead
  rw [tokens, tokens, hlocation, hahead, hrest, placed_add]

lemma map_relocate_zero (ts : List Token) : ts.map (Token.relocate (· + 0)) = ts :=
  List.map_id'' (fun _ => rfl) ts

/-! ### Trees with other values -/

namespace Rose

variable {α β : Type} (f : α → β)

mutual

def map : Rose α → Rose β
  | .node v ts => .node (f v) (maps ts)

def maps : List (Rose α) → List (Rose β)
  | [] => []
  | t :: ts => map t :: maps ts

end

@[simp] lemma map_node (v : α) (ts : List (Rose α)) :
    (node v ts).map f = .node (f v) (maps f ts) := rfl
@[simp] lemma maps_nil : maps f [] = [] := rfl
@[simp] lemma maps_cons (t : Rose α) (ts : List (Rose α)) :
    maps f (t :: ts) = t.map f :: maps f ts := rfl

lemma maps_append (ts us : List (Rose α)) : maps f (ts ++ us) = maps f ts ++ maps f us := by
  induction ts with
  | nil => rfl
  | cons t ts ih => rw [List.cons_append, maps_cons, maps_cons, ih, List.cons_append]

lemma sizes_maps (ts : List (Rose α)) : sizes (maps f ts) = sizes ts := by
  induction ts using forest_induction with
  | nil => rfl
  | cons v ts us ihts ihus =>
    rw [maps_cons, map_node, sizes_cons, sizes_cons, size_node, size_node, ihts, ihus]

lemma layouts_maps (ts : List (Rose α)) :
    layouts (maps f ts) = (layouts ts).map fun slot => ⟨slot.skip, f slot.value⟩ := by
  induction ts using forest_induction with
  | nil => rfl
  | cons v ts us ihts ihus =>
    rw [maps_cons, map_node, layouts_cons, layouts_cons, layout_node, layout_node, ihts, ihus,
      sizes_maps, List.map_append, List.map_cons]

end Rose

/-! ### Recursion over moved tokens -/

section

variable (μ : Motion)

/-- Consuming comes to the same, at other places. -/
structure Consumed.Moves {α : Type} {ts ts' : List Token} (move : α → α) (c : Consumed α ts)
    (c' : Consumed α ts') : Prop where
  made : c'.made = move c.made
  findings : c'.findings = c.findings.map (Finding.move μ)
  rest : c'.rest = c.rest.map (Token.move μ)

lemma Component.relocate_at (t : Token) (kind : ComponentKind) :
    (⟨kind, (t.move μ).start, 0⟩ : Component) = Component.relocate μ.place ⟨kind, t.start, 0⟩ := by
  rw [t.move_start]
  rfl

lemma Token.leaf_move (t : Token) :
    (t.move μ).leaf = t.leaf.map (Component.relocate μ.place) := by
  rw [leaf, leaf, Rose.map_node, ← Component.relocate_at]
  rfl

lemma moves_consume :
    (∀ t ts, (consumeValue t ts).Moves μ (Rose.map (Component.relocate μ.place))
      (consumeValue (t.move μ) (ts.map (Token.move μ)))) ∧
    ∀ closer unclosed ts,
      (consumeValues closer unclosed ts).Moves μ (Rose.maps (Component.relocate μ.place))
        (consumeValues closer (unclosed.move μ) (ts.map (Token.move μ))) := by
  refine consume_induction ?_ ?_ ?_ ?_ ?_ ?_
  · intro t ts ho hf
    rw [consumeValue_leaf ho hf, consumeValue_leaf (t := t.move μ) ho hf]
    exact ⟨t.leaf_move μ, rfl, rfl⟩
  · intro t ts bracket ho ih
    rw [consumeValue_opener ho, consumeValue_opener (t := t.move μ) ho, consumeBlock,
      consumeBlock]
    refine ⟨?_, ih.findings, ih.rest⟩
    rw [Rose.map_node, ← ih.made, Component.relocate_at]
    rfl
  · intro t ts hf ih
    rw [consumeValue_function hf, consumeValue_function (t := t.move μ) hf, consumeFunction,
      consumeFunction]
    refine ⟨?_, ih.findings, ih.rest⟩
    rw [Rose.map_node, ← ih.made, Component.relocate_at]
    rfl
  · intro closer unclosed
    rw [List.map_nil, consumeValues_nil, consumeValues_nil]
    exact ⟨rfl, rfl, rfl⟩
  · intro closer unclosed t ts hc
    rw [List.map_cons, consumeValues_close hc, consumeValues_close (t := t.move μ) hc]
    exact ⟨rfl, rfl, rfl⟩
  · intro closer unclosed t ts hc ihv ihw
    rw [List.map_cons, consumeValues_cons hc, consumeValues_cons (t := t.move μ) hc]
    rw [← ihv.rest] at ihw
    refine ⟨?_, ?_, ihw.rest⟩
    · rw [ihv.made, ihw.made, Rose.maps_cons]
    · rw [ihv.findings, ihw.findings, List.map_append]

lemma moves_block (t : Token) (bracket : Bracket) (ts : List Token) :
    (consumeBlock t bracket ts).Moves μ (Rose.map (Component.relocate μ.place))
      (consumeBlock (t.move μ) bracket (ts.map (Token.move μ))) := by
  have hvalues := (moves_consume μ).2 bracket.closer ⟨.unclosedBlock bracket, t.span⟩ ts
  rw [consumeBlock, consumeBlock]
  refine ⟨?_, hvalues.findings, hvalues.rest⟩
  rw [Rose.map_node, ← hvalues.made, Component.relocate_at]
  rfl

def PreludeEnd.move : PreludeEnd → PreludeEnd
  | .semicolon => .semicolon
  | .brace opening => .brace (opening.move μ)
  | .endOfText => .endOfText

def Prelude.move (p : Prelude) : Prelude :=
  ⟨Rose.maps (Component.relocate μ.place) p.values, p.ending.move μ⟩

lemma moves_prelude (semicolonEnds : Bool) (ts : List Token) :
    (consumePrelude semicolonEnds ts).Moves μ (Prelude.move μ)
      (consumePrelude semicolonEnds (ts.map (Token.move μ))) := by
  fun_induction consumePrelude semicolonEnds ts with
  | case1 =>
    rw [List.map_nil, consumePrelude]
    exact ⟨rfl, rfl, rfl⟩
  | case2 t ts hsemicolon =>
    rw [List.map_cons, consumePrelude, if_pos (by exact hsemicolon)]
    exact ⟨rfl, rfl, rfl⟩
  | case3 t ts hsemicolon hbrace =>
    rw [List.map_cons, consumePrelude, if_neg (by exact hsemicolon), if_pos (by exact hbrace)]
    exact ⟨rfl, rfl, rfl⟩
  | case4 t ts hsemicolon hbrace value more ih =>
    have hvalue := (moves_consume μ).1 t ts
    rw [← hvalue.rest] at ih
    rw [List.map_cons, consumePrelude, if_neg (by exact hsemicolon), if_neg (by exact hbrace)]
    refine ⟨?_, ?_, ih.rest⟩
    · simp only [hvalue.made, ih.made]
      rfl
    · simp only [hvalue.findings, ih.findings, ← List.map_append]
      rfl

def RuleParts.move (r : RuleParts) : RuleParts :=
  ⟨Rose.maps (Component.relocate μ.place) r.values,
    r.block.map (Rose.map (Component.relocate μ.place))⟩

lemma RuleParts.tree_move (r : RuleParts) (kind : ComponentKind) (location : ℕ) :
    (r.move μ).tree kind (μ.place location) =
      (r.tree kind location).map (Component.relocate μ.place) := by
  rcases r with ⟨values, _ | b⟩
  · rfl
  · simp only [move, tree, Option.map_some, Rose.map_node, Rose.maps_append, Rose.sizes_maps]
    rfl

lemma RuleParts.isSome_move (r : RuleParts) :
    (r.move μ).block.isSome = r.block.isSome := Option.isSome_map

lemma moves_parts (semicolonEnds : Bool) (unfinished : Finding) (ts : List Token) :
    (consumeParts semicolonEnds unfinished ts).Moves μ (RuleParts.move μ)
      (consumeParts semicolonEnds (unfinished.move μ) (ts.map (Token.move μ))) := by
  have hprelude := moves_prelude μ semicolonEnds ts
  have hending := congrArg Prelude.ending hprelude.made
  have hvalues := congrArg Prelude.values hprelude.made
  rw [consumeParts, consumeParts]
  rcases hend : (consumePrelude semicolonEnds ts).made.ending with _ | opening | _
  · simp only [Prelude.move, hend, PreludeEnd.move] at hending hvalues
    simp only [hending, hvalues]
    exact ⟨rfl, hprelude.findings, hprelude.rest⟩
  · have hblock := moves_block μ opening .curly (consumePrelude semicolonEnds ts).rest
    rw [← hprelude.rest] at hblock
    simp only [Prelude.move, hend, PreludeEnd.move] at hending hvalues
    simp only [hending, hvalues]
    refine ⟨?_, ?_, hblock.rest⟩
    · rw [hblock.made]
      rfl
    · rw [hblock.findings, hprelude.findings, List.map_append]
  · simp only [Prelude.move, hend, PreludeEnd.move] at hending hvalues
    simp only [hending, hvalues]
    refine ⟨rfl, ?_, hprelude.rest⟩
    rw [hprelude.findings, List.map_append]
    rfl

lemma moves_atRule (t : Token) (ts : List Token) :
    (consumeAtRule t ts).Moves μ (Rose.map (Component.relocate μ.place))
      (consumeAtRule (t.move μ) (ts.map (Token.move μ))) := by
  have hparts := moves_parts μ true ⟨.unclosedAtRule, t.span⟩ ts
  rw [consumeAtRule, consumeAtRule]
  refine ⟨?_, hparts.findings, hparts.rest⟩
  rw [← RuleParts.tree_move, ← hparts.made, ← t.move_start]
  rfl

lemma moves_qualifiedRule (t : Token) (ts : List Token) :
    (consumeQualifiedRule t ts).Moves μ (RuleParts.move μ)
      (consumeQualifiedRule (t.move μ) (ts.map (Token.move μ))) := by
  have hparts := moves_parts μ false ⟨.missingBlock, t.span⟩ (t :: ts)
  exact ⟨hparts.made, hparts.findings, hparts.rest⟩

def Sheet.move (sheet : Sheet) : Sheet :=
  ⟨Rose.maps (Component.relocate μ.place) sheet.rules,
    Rose.maps (Component.relocate μ.place) sheet.dropped, sheet.findings.map (Finding.move μ)⟩

lemma Sheet.written_move (sheet : Sheet) : (sheet.move μ).written = sheet.written := by
  simp only [written, move, Rose.sizes_maps]

/-- **Moved tokens** make the same sheet at other places. -/
theorem consumeRules_move (list : ListKind) (ts : List Token) :
    consumeRules list (ts.map (Token.move μ)) = (consumeRules list ts).move μ := by
  fun_induction consumeRules list ts with
  | case1 =>
    rw [List.map_nil, consumeRules]
    rfl
  | case2 t ts hignored ih =>
    rw [List.map_cons, consumeRules, if_pos (by exact hignored)]
    exact ih
  | case3 t ts hignored hat rule more ih =>
    have hrule := moves_atRule μ t ts
    rw [← hrule.rest] at ih
    rw [List.map_cons, consumeRules, if_neg (by exact hignored), if_pos (by exact hat)]
    simp only [ih, hrule.made, hrule.findings, Sheet.move, List.map_append, Rose.maps_cons]
    rfl
  | case4 t ts hignored hat rule more tree hblock ih =>
    have hrule := moves_qualifiedRule μ t ts
    rw [← hrule.rest] at ih
    rw [List.map_cons, consumeRules, if_neg (by exact hignored), if_neg (by exact hat)]
    simp only [ih, hrule.made, hrule.findings, RuleParts.isSome_move, Token.move_start,
      RuleParts.tree_move]
    rw [if_pos (by exact hblock)]
    simp only [Sheet.move, List.map_append, Rose.maps_cons]
    rfl
  | case5 t ts hignored hat rule more tree hblock ih =>
    have hrule := moves_qualifiedRule μ t ts
    rw [← hrule.rest] at ih
    rw [List.map_cons, consumeRules, if_neg (by exact hignored), if_neg (by exact hat)]
    simp only [ih, hrule.made, hrule.findings, RuleParts.isSome_move, Token.move_start,
      RuleParts.tree_move]
    rw [if_neg (by exact hblock)]
    simp only [Sheet.move, List.map_append, Rose.maps_cons]
    rfl

end

def Sheet.relocate (sheet : Sheet) : Sheet :=
  ⟨Rose.maps (Component.relocate σ) sheet.rules, Rose.maps (Component.relocate σ) sheet.dropped,
    sheet.findings.map (Finding.relocate σ)⟩

lemma Sheet.written_relocate (sheet : Sheet) : (sheet.relocate σ).written = sheet.written :=
  sheet.written_move (.rigid σ)

lemma consumeRules_relocate (list : ListKind) (ts : List Token) :
    consumeRules list (ts.map (Token.relocate σ)) = (consumeRules list ts).relocate σ :=
  consumeRules_move (.rigid σ) list ts

/-! ### The order of problems -/

/-- The same problem, at the place that `σ` gives to its place. -/
def Finding.Alike (f g : Finding) : Prop := g.problem = f.problem ∧ g.span.start = σ f.span.start

lemma Finding.alike_relocate (f : Finding) : f.Alike σ (f.relocate σ) := ⟨rfl, rfl⟩

variable {σ}

section

variable {R : Finding → Finding → Prop} (hR : ∀ {f g f' g'}, R f f' → R g g' →
  (f'.span.start ≤ g'.span.start ↔ f.span.start ≤ g.span.start))

include hR

lemma insertFinding_forall₂ {f f' : Finding} (h : R f f') {fs gs : List Finding}
    (hs : List.Forall₂ R fs gs) :
    List.Forall₂ R (insertFinding f fs) (insertFinding f' gs) := by
  induction hs with
  | nil => exact .cons h .nil
  | @cons a b fs gs hab hs ih =>
    rw [insertFinding, insertFinding]
    by_cases hle : f.span.start ≤ a.span.start
    · rw [if_pos hle, if_pos ((hR h hab).mpr hle)]
      exact .cons h (.cons hab hs)
    · rw [if_neg hle, if_neg (mt (hR h hab).mp hle)]
      exact .cons hab ih

lemma sortFindings_forall₂ {fs gs : List Finding} (hs : List.Forall₂ R fs gs) :
    List.Forall₂ R (sortFindings fs) (sortFindings gs) := by
  induction hs with
  | nil => exact .nil
  | cons h hs ih => exact insertFinding_forall₂ hR h ih

end

lemma sortFindings_alike (hσ : StrictMono σ) {fs gs : List Finding}
    (hs : List.Forall₂ (Finding.Alike σ) fs gs) :
    List.Forall₂ (Finding.Alike σ) (sortFindings fs) (sortFindings gs) := by
  refine sortFindings_forall₂ (fun {f g f' g'} hf hg => ?_) hs
  rw [hf.2, hg.2]
  exact hσ.le_iff_le

lemma sortFindings_move {μ : Motion} {places : Set ℕ} (hμ : StrictMonoOn μ.place places)
    {fs : List Finding} (hfs : ∀ f ∈ fs, f.span.start ∈ places) :
    sortFindings (fs.map (Finding.move μ)) = (sortFindings fs).map (Finding.move μ) := by
  have hmoved : List.Forall₂ (fun f g => f.span.start ∈ places ∧ f.move μ = g) fs
      (fs.map (Finding.move μ)) :=
    List.forall₂_map_right_iff.mpr (List.forall₂_same.mpr fun f hf => ⟨hfs f hf, rfl⟩)
  have hsorted := sortFindings_forall₂ (fun {f g f' g'} hf hg => by
    obtain ⟨hf, rfl⟩ := hf
    obtain ⟨hg, rfl⟩ := hg
    rw [Finding.move, Finding.move, μ.start, μ.start]
    exact hμ.le_iff_le hf hg) hmoved
  have hsame : List.Forall₂ (· = ·) ((sortFindings fs).map (Finding.move μ)) _ :=
    List.forall₂_map_left_iff.mpr (hsorted.imp fun _ _ h => h.2)
  rw [List.forall₂_eq_eq_eq] at hsame
  exact hsame.symm

lemma map_message_of_alike {fs gs : List Finding} (hs : List.Forall₂ (Finding.Alike σ) fs gs) :
    gs.map (fun f => f.problem.message) = fs.map fun f => f.problem.message := by
  induction hs with
  | nil => rfl
  | cons h hs ih => rw [List.map_cons, List.map_cons, ih, h.1]

end Stylesheet
