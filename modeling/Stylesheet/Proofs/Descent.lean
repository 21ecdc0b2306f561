import Stylesheet.Proofs.Rose
import Stylesheet.Structure.Parse

/-!
The structure of a style sheet by plain recursion over its tokens, as the standard defines it: a
list of rules consumes rules, a rule its prelude and its block, a block and a function the values
in them, and a value may be a block or a function again. What is open when the tokens run out is
reported from the inside out.
-/

namespace Stylesheet

open Rose

/-- What some tokens make, the problems met at the end of the text, and the tokens left over;
these are the last of the tokens `ts`. -/
structure Consumed (α : Type) (ts : List Token) where
  made : α
  findings : List Finding
  rest : List Token
  last : rest <:+ ts

/-- The leaf that a token is when it opens nothing. Of the tokens that reach a component, each
that opens nothing has a leaf of its own kind. -/
def Token.leaf (t : Token) : Rose Component :=
  .node ⟨(ComponentKind.ofToken? t.kind).getD .delim, t.start, 0⟩ []

mutual

/-- A component value that starts with the token `t`. A token that opens nothing is a value by
itself, also a closing bracket that matches nothing. -/
def consumeValue (t : Token) (ts : List Token) : Consumed (Rose Component) ts :=
  match Bracket.ofOpener? t.kind with
  | some bracket => consumeBlock t bracket ts
  | none =>
    if t.kind = .function then consumeFunction t ts
    else ⟨t.leaf, [], ts, List.suffix_refl _⟩
termination_by (ts.length, 2)

def consumeBlock (t : Token) (bracket : Bracket) (ts : List Token) :
    Consumed (Rose Component) ts :=
  let values := consumeValues bracket.closer ⟨.unclosedBlock bracket, t.span⟩ ts
  ⟨.node ⟨bracket.block, t.start, 0⟩ values.made, values.findings, values.rest, values.last⟩
termination_by (ts.length, 1)

def consumeFunction (t : Token) (ts : List Token) : Consumed (Rose Component) ts :=
  let values := consumeValues .rightParen ⟨.unclosedFunction, t.span⟩ ts
  ⟨.node ⟨.function, t.start, 0⟩ values.made, values.findings, values.rest, values.last⟩
termination_by (ts.length, 1)

/-- Component values up to a closing token. If the tokens run out first, `unclosed` is reported
after what was open inside. -/
def consumeValues (closer : TokenKind) (unclosed : Finding) (ts : List Token) :
    Consumed (List (Rose Component)) ts :=
  match ts with
  | [] => ⟨[], [unclosed], [], List.suffix_refl _⟩
  | t :: ts =>
    if t.kind = closer then ⟨[], [], ts, List.suffix_cons _ _⟩
    else
      let value := consumeValue t ts
      let values := consumeValues closer unclosed value.rest
      ⟨value.made :: values.made, value.findings ++ values.findings, values.rest,
        (values.last.trans value.last).trans (List.suffix_cons _ _)⟩
termination_by (ts.length, 0)
decreasing_by
  · exact .left _ _ (Nat.lt_succ_self _)
  · exact .left _ _ (Nat.lt_succ_of_le value.last.length_le)

end

section consumers

variable {t : Token} {ts : List Token} {bracket : Bracket} {closer : TokenKind} {unclosed : Finding}

lemma consumeValue_opener (h : Bracket.ofOpener? t.kind = some bracket) :
    consumeValue t ts = consumeBlock t bracket ts := by
  rw [consumeValue, h]

lemma consumeValue_function (h : t.kind = .function) :
    consumeValue t ts = consumeFunction t ts := by
  rw [consumeValue, h]; simp [Bracket.ofOpener?]

lemma consumeValue_leaf (ho : Bracket.ofOpener? t.kind = none) (hf : t.kind ≠ .function) :
    consumeValue t ts = ⟨t.leaf, [], ts, List.suffix_refl _⟩ := by
  rw [consumeValue, ho]
  simp only [if_neg hf]

lemma consumeValues_nil :
    consumeValues closer unclosed [] = ⟨[], [unclosed], [], List.suffix_refl _⟩ := by
  rw [consumeValues]

lemma consumeValues_close (h : t.kind = closer) :
    consumeValues closer unclosed (t :: ts) = ⟨[], [], ts, List.suffix_cons _ _⟩ := by
  rw [consumeValues, if_pos h]

lemma consumeValues_cons (h : t.kind ≠ closer) :
    consumeValues closer unclosed (t :: ts) =
      ⟨(consumeValue t ts).made :: (consumeValues closer unclosed (consumeValue t ts).rest).made,
        (consumeValue t ts).findings ++
          (consumeValues closer unclosed (consumeValue t ts).rest).findings,
        (consumeValues closer unclosed (consumeValue t ts).rest).rest,
        ((consumeValues closer unclosed (consumeValue t ts).rest).last.trans
          (consumeValue t ts).last).trans (List.suffix_cons _ _)⟩ := by
  rw [consumeValues, if_neg h]

end consumers

/-- Induction along the recursion: `V` speaks of a value and the tokens behind its first one, `W`
of values up to a closing token. -/
theorem consume_induction {V : Token → List Token → Prop}
    {W : TokenKind → Finding → List Token → Prop}
    (leaf : ∀ t ts, Bracket.ofOpener? t.kind = none → t.kind ≠ .function → V t ts)
    (block : ∀ t ts bracket, Bracket.ofOpener? t.kind = some bracket →
      W bracket.closer ⟨.unclosedBlock bracket, t.span⟩ ts → V t ts)
    (function : ∀ t ts, t.kind = .function →
      W .rightParen ⟨.unclosedFunction, t.span⟩ ts → V t ts)
    (nil : ∀ closer unclosed, W closer unclosed [])
    (close : ∀ closer unclosed t ts, t.kind = closer → W closer unclosed (t :: ts))
    (cons : ∀ closer unclosed t ts, t.kind ≠ closer → V t ts →
      W closer unclosed (consumeValue t ts).rest → W closer unclosed (t :: ts)) :
    (∀ t ts, V t ts) ∧ ∀ closer unclosed ts, W closer unclosed ts := by
  have value : ∀ t ts, (∀ closer unclosed, W closer unclosed ts) → V t ts := by
    intro t ts hW
    rcases ho : Bracket.ofOpener? t.kind with _ | bracket
    · by_cases hf : t.kind = .function
      · exact function t ts hf (hW _ _)
      · exact leaf t ts ho hf
    · exact block t ts bracket ho (hW _ _)
  have values : ∀ ts closer unclosed, W closer unclosed ts := by
    intro ts
    induction hn : ts.length using Nat.strongRecOn generalizing ts with
    | ind n ih =>
      intro closer unclosed
      rcases ts with _ | ⟨t, ts⟩
      · exact nil closer unclosed
      · simp only [List.length_cons] at hn
        have hlen := (consumeValue t ts).last.length_le
        by_cases hc : t.kind = closer
        · exact close closer unclosed t ts hc
        · exact cons closer unclosed t ts hc (value t ts (ih ts.length (by omega) ts rfl))
            (ih _ (by omega) _ rfl closer unclosed)
  exact ⟨fun t ts => value t ts (values ts), fun closer unclosed ts => values ts closer unclosed⟩

/-- What ends the prelude of a rule. -/
inductive PreludeEnd
  | semicolon
  | brace (opening : Token)
  | endOfText

structure Prelude where
  values : List (Rose Component)
  ending : PreludeEnd

/-- The values of a rule up to its block, or up to a semicolon if that can end it. -/
def consumePrelude (semicolonEnds : Bool) (ts : List Token) : Consumed Prelude ts.tail :=
  match ts with
  | [] => ⟨⟨[], .endOfText⟩, [], [], List.suffix_refl _⟩
  | t :: ts =>
    if semicolonEnds ∧ t.kind = .semicolon then ⟨⟨[], .semicolon⟩, [], ts, List.suffix_refl _⟩
    else if t.kind = .leftBrace then ⟨⟨[], .brace t⟩, [], ts, List.suffix_refl _⟩
    else
      let value := consumeValue t ts
      let more := consumePrelude semicolonEnds value.rest
      ⟨⟨value.made :: more.made.values, more.made.ending⟩, value.findings ++ more.findings,
        more.rest, (more.last.trans (List.tail_suffix _)).trans value.last⟩
termination_by ts.length
decreasing_by exact Nat.lt_succ_of_le value.last.length_le

/-- Only the end of the text leaves nothing behind a prelude. -/
lemma rest_of_endOfText {semicolonEnds : Bool} {ts : List Token}
    (h : (consumePrelude semicolonEnds ts).made.ending = .endOfText) :
    (consumePrelude semicolonEnds ts).rest = [] := by
  fun_induction consumePrelude semicolonEnds ts with
  | case1 => rfl
  | case2 t ts => simp at h
  | case3 t ts => simp at h
  | case4 t ts _ _ _ more ih => exact ih h

lemma ending_ne_semicolon (ts : List Token) :
    (consumePrelude false ts).made.ending ≠ .semicolon := by
  fun_induction consumePrelude false ts with
  | case1 => simp
  | case2 t ts h => simp at h
  | case3 t ts => simp
  | case4 t ts _ _ _ more ih => exact ih

/-- The parts of a rule. -/
structure RuleParts where
  values : List (Rose Component)
  block : Option (Rose Component)

/-- A rule as a node. It says how far its block is from it. -/
def RuleParts.tree (r : RuleParts) (kind : ComponentKind) (location : ℕ) : Rose Component :=
  match r.block with
  | some block => .node ⟨kind, location, 1 + sizes r.values⟩ (r.values ++ [block])
  | none => .node ⟨kind, location, 0⟩ r.values

lemma RuleParts.size_tree (r : RuleParts) (kind : ComponentKind) (location : ℕ) :
    (r.tree kind location).size = 1 + sizes r.values + sizes r.block.toList := by
  rcases r with ⟨values, _ | b⟩
  · simp [RuleParts.tree]
  · simp only [RuleParts.tree, size_node, sizes_append, Option.toList_some, Nat.add_assoc]

/-- The prelude of a rule and the block attached to it. -/
def consumeParts (semicolonEnds : Bool) (unfinished : Finding) (ts : List Token) :
    Consumed RuleParts ts.tail :=
  let p := consumePrelude semicolonEnds ts
  match p.made.ending with
  | .semicolon => ⟨⟨p.made.values, none⟩, p.findings, p.rest, p.last⟩
  | .brace opening =>
    let block := consumeBlock opening .curly p.rest
    ⟨⟨p.made.values, some block.made⟩, p.findings ++ block.findings, block.rest,
      block.last.trans p.last⟩
  | .endOfText => ⟨⟨p.made.values, none⟩, p.findings ++ [unfinished], p.rest, p.last⟩

/-- An at-rule whose keyword is the token `t`: it ends with a semicolon, a block or the text. -/
def consumeAtRule (t : Token) (ts : List Token) : Consumed (Rose Component) ts :=
  let r := consumeParts true ⟨.unclosedAtRule, t.span⟩ ts
  ⟨r.made.tree .atRule t.start, r.findings, r.rest, r.last.trans (List.tail_suffix _)⟩

/-- A qualified rule whose first token is `t`, which belongs to its prelude or is its brace. It
ends with its block, so one that has none is not finished. -/
def consumeQualifiedRule (t : Token) (ts : List Token) : Consumed RuleParts ts :=
  consumeParts false ⟨.missingBlock, t.span⟩ (t :: ts)

lemma rest_of_no_block {t : Token} {ts : List Token}
    (h : (consumeQualifiedRule t ts).made.block = none) :
    (consumeQualifiedRule t ts).rest = [] := by
  have hsemicolon := ending_ne_semicolon (t :: ts)
  rw [consumeQualifiedRule, consumeParts] at h ⊢
  rcases hend : (consumePrelude false (t :: ts)).made.ending with _ | opening | _
  · exact absurd hend hsemicolon
  · simp [hend] at h
  · exact rest_of_endOfText hend

/-- The rules of a list, those that were dropped because they have no block, and the problems
met at the end of the text. -/
structure Sheet where
  rules : List (Rose Component)
  dropped : List (Rose Component)
  findings : List Finding

/-- A list of rules, up to the end of the text. -/
def consumeRules (list : ListKind) (ts : List Token) : Sheet :=
  match ts with
  | [] => ⟨[], [], []⟩
  | t :: ts =>
    if list.ignores t.kind then consumeRules list ts
    else if t.kind = .atKeyword then
      let rule := consumeAtRule t ts
      let more := consumeRules list rule.rest
      ⟨rule.made :: more.rules, more.dropped, rule.findings ++ more.findings⟩
    else
      let rule := consumeQualifiedRule t ts
      let more := consumeRules list rule.rest
      let tree := rule.made.tree .qualifiedRule t.start
      if rule.made.block.isSome then
        ⟨tree :: more.rules, more.dropped, rule.findings ++ more.findings⟩
      else ⟨more.rules, tree :: more.dropped, rule.findings ++ more.findings⟩
termination_by ts.length
decreasing_by
  · exact Nat.lt_succ_self _
  · exact Nat.lt_succ_of_le rule.last.length_le
  · exact Nat.lt_succ_of_le rule.last.length_le

def Sheet.written (sheet : Sheet) : ℕ := sizes sheet.rules + sizes sheet.dropped

def Sheet.tree (sheet : Sheet) (start : ℕ) : Rose Component :=
  .node ⟨.ruleList, start, 0⟩ sheet.rules

/-- The tokens that belong to the structure: the end and the comments do not. -/
def Token.IsMaterial (t : Token) : Prop := t.kind ≠ .eof ∧ t.kind ≠ .comments

namespace Source

/-- The tokens from here on without the comments. -/
def material (s : Source) : List Token := s.tokens.filter fun t => t.kind ≠ .comments

/-- The sheet that starts here, by plain recursion. -/
def sheet (s : Source) (list : ListKind) : Sheet := consumeRules list s.material

end Source

end Stylesheet
