import Stylesheet.Proofs.Levels

/-!
The machine does what plain recursion does. From a state in which a block is open, feeding the
tokens and closing what is left at the end comes to the same as consuming the inside of the block
by recursion and going on behind it; likewise for functions, preludes and rules. The statements
quantify over everything that is open around, so they compose, and the number of slots is kept
beside them, since the machine stops when there is no room for another one.
-/

namespace Stylesheet

open Rose

def report {β : Type} (fs : List Finding) (x : Except TreeError (β × List Finding)) :
    Except TreeError (β × List Finding) :=
  x.map fun p => (p.1, fs ++ p.2)

section report

variable {β : Type} (fs gs : List Finding) (x : Except TreeError (β × List Finding))

@[simp] lemma report_nil : report [] x = x := by cases x <;> rfl

@[simp] lemma report_report : report fs (report gs x) = report (fs ++ gs) x := by
  cases x <;> simp [report, Except.map]

lemma report_ok (b : β) : report fs (.ok (b, gs)) = .ok (b, fs ++ gs) := rfl

lemma report_reserve (cap n : ℕ) : report fs (reserve cap n x) = reserve cap n (report fs x) := by
  unfold reserve; split_ifs <;> rfl

end report

namespace Machine

open Level

/-- Feeds the tokens that are left and closes what is open at their end. -/
def complete (m : Machine) (ts : List Token) :
    Except TreeError (ComponentBuilder × List Finding) := do
  let m ← m.run ts
  unwind m.stack m.builder

lemma complete_nil (m : Machine) : m.complete [] = unwind m.stack m.builder := rfl

lemma complete_cons (m : Machine) (t : Token) (ts : List Token) :
    m.complete (t :: ts) = m.feed t >>= fun m => m.complete ts := by
  rw [complete, run_cons, bind_assoc]
  rfl

variable {start : ℕ}

/-! ### Values up to a closing token -/

/-- A frame that takes values up to a closing token. `closed` is the machine after that, with the
given trees in the frame; at the end of the text `unclosed` is reported. -/
structure Encloses (start : ℕ) (f : Frame) (ls : List Level) (closer : TokenKind)
    (unclosed : Finding) (closed : List (Rose Component) → Machine) : Prop where
  close : ∀ cs t, t.kind = closer → (ofLevels start (⟨f, cs⟩ :: ls)).feed t = .ok (closed cs)
  inner : ∀ cs t, t.kind ≠ closer →
    (ofLevels start (⟨f, cs⟩ :: ls)).feed t = (ofLevels start (⟨f, cs⟩ :: ls)).value t
  atEnd : ∀ cs,
    (ofLevels start (⟨f, cs⟩ :: ls)).complete [] = report [unclosed] ((closed cs).complete [])

lemma encloses_block (t : Token) (bracket : Bracket) (k : Level) (ls : List Level) :
    Encloses start (.block t bracket false) (k :: ls) bracket.closer
      ⟨.unclosedBlock bracket, t.span⟩
      fun cs => ofLevels start (k.add [.node ⟨bracket.block, t.start, 0⟩ cs] :: ls) where
  close cs u hu := by
    rw [feed, ofLevels_stack, List.map_cons]
    simp only [if_pos hu]
    exact popBlock_ofLevels _ k ls
  inner cs u hu := by
    rw [feed, ofLevels_stack, List.map_cons]
    simp only [if_neg hu]
  atEnd cs := by
    rw [complete_nil, complete_nil, ofLevels_stack, List.map_cons, unwind, ofLevels_builder,
      closeBlock_ofLevels, ok_bind]
    · rfl
    · simp

lemma encloses_attached (t : Token) (r k : Level) (ls : List Level) :
    Encloses start (.block t .curly true) (r :: k :: ls) Bracket.curly.closer
      ⟨.unclosedBlock .curly, t.span⟩
      fun cs => ofLevels start
        (k.add [r.treeWith start (.node ⟨Bracket.curly.block, t.start, 0⟩ cs)] :: ls) where
  close cs u hu := by
    rw [feed, ofLevels_stack, List.map_cons]
    simp only [if_pos hu]
    exact popBlock_attached _ r k ls
  inner cs u hu := by
    rw [feed, ofLevels_stack, List.map_cons]
    simp only [if_neg hu]
  atEnd cs := by
    rw [complete_nil, complete_nil, ofLevels_stack, List.map_cons, List.map_cons, unwind,
      ofLevels_builder, closeBlock_attached, ok_bind]
    rfl

lemma encloses_function (t : Token) (k : Level) (ls : List Level) :
    Encloses start (.function t) (k :: ls) .rightParen ⟨.unclosedFunction, t.span⟩
      fun cs => ofLevels start (k.add [.node ⟨.function, t.start, 0⟩ cs] :: ls) where
  close cs u hu := by
    rw [feed, ofLevels_stack, List.map_cons]
    simp only [if_pos hu]
    exact pop_ofLevels _ k ls
  inner cs u hu := by
    rw [feed, ofLevels_stack, List.map_cons]
    simp only [if_neg hu]
  atEnd cs := by
    rw [complete_nil, complete_nil, ofLevels_stack, List.map_cons, unwind, ofLevels_builder,
      finishNode_ofLevels, ok_bind]
    rfl

/-- Consuming values by recursion is what the machine does with the tokens `ts` in any frame that
encloses values. -/
def RunsValues (start : ℕ) (ts : List Token) : Prop :=
  ∀ {f ls closer unclosed closed}, Encloses start f ls closer unclosed closed → ∀ cs,
    used (⟨f, cs⟩ :: ls) ≤ componentCapacity →
    (ofLevels start (⟨f, cs⟩ :: ls)).complete ts =
      reserve componentCapacity
        (used (⟨f, cs⟩ :: ls) + sizes (consumeValues closer unclosed ts).made)
        (report (consumeValues closer unclosed ts).findings
          ((closed (cs ++ (consumeValues closer unclosed ts).made)).complete
            (consumeValues closer unclosed ts).rest))

/-- A node that a frame opens and that is handed to `g` when it is whole. -/
lemma complete_opened {ts : List Token} (hruns : RunsValues start ts) {f : Frame} {ls : List Level}
    {closer : TokenKind} {unclosed : Finding} {c : Component} {g : Rose Component → Machine}
    (h : Encloses start f ls closer unclosed fun cs => g (.node c cs)) :
    (reserve componentCapacity (used ls + 1) (.ok (ofLevels start (⟨f, []⟩ :: ls))) >>=
        fun m => m.complete ts) =
      reserve componentCapacity (used ls + (node c (consumeValues closer unclosed ts).made).size)
        (report (consumeValues closer unclosed ts).findings
          ((g (.node c (consumeValues closer unclosed ts).made)).complete
            (consumeValues closer unclosed ts).rest)) := by
  have hcount : used ls + (node c (consumeValues closer unclosed ts).made).size =
      used (⟨f, []⟩ :: ls) + sizes (consumeValues closer unclosed ts).made := by
    simp only [used_cons, size_node, sizes_nil]; omega
  rw [reserve_bind, ok_bind, hcount]
  refine reserve_trans (by simp only [used_cons]; omega) fun hroom => ?_
  exact hruns h [] (by simpa using hroom)

lemma complete_value {t : Token} {ts : List Token} (hruns : RunsValues start ts)
    (ht : t.IsMaterial) (l : Level) (ls : List Level) :
    ((ofLevels start (l :: ls)).value t >>= fun m => m.complete ts) =
      reserve componentCapacity (used (l :: ls) + (consumeValue t ts).made.size)
        (report (consumeValue t ts).findings
          ((ofLevels start (l.add [(consumeValue t ts).made] :: ls)).complete
            (consumeValue t ts).rest)) := by
  rcases ho : Bracket.ofOpener? t.kind with _ | bracket
  · by_cases hf : t.kind = .function
    · rw [value_function _ hf, consumeValue_function hf, consumeFunction]
      exact complete_opened (g := fun v => ofLevels start (l.add [v] :: ls)) hruns
        (encloses_function t l ls)
    · rw [value_leaf l ls ht ho hf, consumeValue_leaf ho hf, reserve_bind, ok_bind, report_nil]
      rfl
  · rw [value_opener _ ho, consumeValue_opener ho, consumeBlock]
    exact complete_opened (g := fun v => ofLevels start (l.add [v] :: ls)) hruns
      (encloses_block t bracket l ls)

/-- **Blocks and functions**: the machine consumes the values in them as recursion does. -/
theorem runsValues {ts : List Token} (hts : ∀ t ∈ ts, t.IsMaterial) : RunsValues start ts := by
  -- the values behind the first one start at what that one left, so the length is what shrinks
  induction hn : ts.length using Nat.strongRecOn generalizing ts with
  | ind n ih =>
    intro f ls closer unclosed closed h cs hroom
    rcases ts with _ | ⟨t, ts⟩
    · simp only [consumeValues_nil, sizes_nil, Nat.add_zero, List.append_nil, reserve_of_le hroom]
      exact h.atEnd cs
    · have ht := hts t (by simp)
      have hts' : ∀ u ∈ ts, u.IsMaterial := fun u hu => hts u (by simp [hu])
      simp only [List.length_cons] at hn
      by_cases hc : t.kind = closer
      · simp only [consumeValues_close hc, sizes_nil, Nat.add_zero, List.append_nil,
          reserve_of_le hroom, report_nil]
        rw [complete_cons, h.close cs t hc, ok_bind]
      · have hlast := (consumeValue t ts).last
        have hrest : ∀ u ∈ (consumeValue t ts).rest, u.IsMaterial :=
          fun u hu => hts' u (hlast.subset hu)
        have hlen := hlast.length_le
        rw [complete_cons, h.inner cs t hc,
          complete_value (ih ts.length (by omega) hts' rfl) ht, consumeValues_cons hc]
        refine reserve_trans (by simp only [sizes_cons]; omega) fun hroom' => ?_
        have hused := used_snoc f cs (consumeValue t ts).made ls
        have hmore := ih (consumeValue t ts).rest.length (by omega) hrest rfl h
          (cs ++ [(consumeValue t ts).made]) (by omega)
        rw [Level.add, hmore, report_reserve, report_report, hused, sizes_cons,
          List.append_assoc, Nat.add_assoc]
        rfl

/-! ### Rules -/

/-- A frame in which the prelude of a rule is read. What it adds to the list of rules when it is
closed with its parts is `kept`; without a block it is closed by a semicolon, if one ends it, or
at the end of the text, where `unfinished` is reported. -/
structure Heads (start : ℕ) (f : Frame) (semicolonEnds : Bool) (unfinished : Finding)
    (kept : RuleParts → List (Rose Component)) : Prop where
  inner : ∀ cs ls t, ¬ (semicolonEnds ∧ t.kind = .semicolon) →
    (ofLevels start (⟨f, cs⟩ :: ls)).feed t = (ofLevels start (⟨f, cs⟩ :: ls)).preludeValue t
  semicolon : ∀ cs k ls t, semicolonEnds ∧ t.kind = .semicolon →
    (ofLevels start (⟨f, cs⟩ :: k :: ls)).feed t =
      .ok (ofLevels start (k.add (kept ⟨cs, none⟩) :: ls))
  atEnd : ∀ cs k ls, (ofLevels start (⟨f, cs⟩ :: k :: ls)).complete [] =
    report [unfinished] ((ofLevels start (k.add (kept ⟨cs, none⟩) :: ls)).complete [])
  block : ∀ cs b, kept ⟨cs, some b⟩ = [(Level.mk f cs).treeWith start b]

lemma heads_atRule (t : Token) :
    Heads start (.atRule t) true ⟨.unclosedAtRule, t.span⟩ fun r => [r.tree .atRule t.start] where
  inner cs ls u hu := by
    rw [feed, ofLevels_stack, List.map_cons]
    simp only [if_neg (show ¬ u.kind = .semicolon by simpa using hu)]
  semicolon cs k ls u hu := by
    rw [feed, ofLevels_stack, List.map_cons]
    simp only [if_pos hu.2]
    exact pop_ofLevels _ k ls
  atEnd cs k ls := by
    rw [complete_nil, complete_nil, ofLevels_stack, List.map_cons, unwind, ofLevels_builder,
      finishNode_ofLevels, ok_bind]
    rfl
  block cs b := rfl

lemma heads_qualifiedRule (t : Token) :
    Heads start (.qualifiedRule t) false ⟨.missingBlock, t.span⟩
      fun r => if r.block.isSome then [r.tree .qualifiedRule t.start] else [] where
  inner cs ls u hu := rfl
  semicolon cs k ls u hu := by simp at hu
  atEnd cs k ls := by
    rw [complete_nil, complete_nil, ofLevels_stack, List.map_cons, unwind, ofLevels_builder,
      List.map_cons, Builder.abandonNode_ofLayers, ok_bind]
    simp only [Option.isSome_none, Bool.false_eq_true, if_false, add_nil]
    rfl
  block cs b := rfl

/-- What the machine does behind a prelude with the given values. -/
def afterPrelude (start : ℕ) (f : Frame) (kept : RuleParts → List (Rose Component)) (k : Level)
    (ls : List Level) (values : List (Rose Component)) (rest : List Token) :
    PreludeEnd → Except TreeError (ComponentBuilder × List Finding)
  | .semicolon => (ofLevels start (k.add (kept ⟨values, none⟩) :: ls)).complete rest
  | .brace opening => do
    let m ← (ofLevels start (⟨f, values⟩ :: k :: ls)).push (.block opening .curly true) .curlyBlock
      opening.start
    m.complete rest
  | .endOfText => (ofLevels start (⟨f, values⟩ :: k :: ls)).complete rest

lemma complete_prelude {f : Frame} {semicolonEnds : Bool} {unfinished : Finding}
    {kept : RuleParts → List (Rose Component)} (hf : Heads start f semicolonEnds unfinished kept)
    {ts : List Token} (hts : ∀ t ∈ ts, t.IsMaterial) (cs : List (Rose Component)) (k : Level)
    (ls : List Level) (hroom : used (⟨f, cs⟩ :: k :: ls) ≤ componentCapacity) :
    (ofLevels start (⟨f, cs⟩ :: k :: ls)).complete ts =
      reserve componentCapacity
        (used (⟨f, cs⟩ :: k :: ls) + sizes (consumePrelude semicolonEnds ts).made.values)
        (report (consumePrelude semicolonEnds ts).findings
          (afterPrelude start f kept k ls (cs ++ (consumePrelude semicolonEnds ts).made.values)
            (consumePrelude semicolonEnds ts).rest
            (consumePrelude semicolonEnds ts).made.ending)) := by
  induction hn : ts.length using Nat.strongRecOn generalizing ts cs with
  | ind n ih =>
    rcases ts with _ | ⟨t, ts⟩
    · rw [consumePrelude]
      simp only [sizes_nil, Nat.add_zero, List.append_nil, reserve_of_le hroom, report_nil]
      rfl
    · have ht := hts t (by simp)
      have hts' : ∀ u ∈ ts, u.IsMaterial := fun u hu => hts u (by simp [hu])
      simp only [List.length_cons] at hn
      by_cases hs : semicolonEnds ∧ t.kind = .semicolon
      · rw [complete_cons, hf.semicolon cs k ls t hs, consumePrelude]
        simp only [if_pos hs, sizes_nil, Nat.add_zero, List.append_nil, reserve_of_le hroom,
          report_nil]
        rfl
      · rw [complete_cons, hf.inner cs _ t hs, consumePrelude]
        simp only [if_neg hs]
        by_cases hb : t.kind = .leftBrace
        · rw [preludeValue, if_pos hb]
          simp only [if_pos hb, sizes_nil, Nat.add_zero, List.append_nil, reserve_of_le hroom,
            report_nil]
          rfl
        · have hlast := (consumeValue t ts).last
          have hrest : ∀ u ∈ (consumeValue t ts).rest, u.IsMaterial :=
            fun u hu => hts' u (hlast.subset hu)
          have hlen := hlast.length_le
          rw [preludeValue, if_neg hb, complete_value (runsValues hts') ht]
          simp only [if_neg hb]
          refine reserve_trans (by simp only [sizes_cons]; omega) fun hroom' => ?_
          have hused := used_snoc f cs (consumeValue t ts).made (k :: ls)
          have hmore := ih (consumeValue t ts).rest.length (by omega) hrest
            (cs ++ [(consumeValue t ts).made]) (by omega) rfl
          rw [Level.add, hmore, report_reserve, report_report, hused, sizes_cons,
            List.append_assoc, Nat.add_assoc]
          rfl

/-- **Rules**: behind its prelude a rule is closed by its block, by a semicolon or by the end. -/
theorem complete_parts {f : Frame} {semicolonEnds : Bool} {unfinished : Finding}
    {kept : RuleParts → List (Rose Component)} (hf : Heads start f semicolonEnds unfinished kept)
    {ts : List Token} (hts : ∀ t ∈ ts, t.IsMaterial) (k : Level) (ls : List Level)
    (hroom : used (k :: ls) + 1 ≤ componentCapacity) :
    (ofLevels start (⟨f, []⟩ :: k :: ls)).complete ts =
      reserve componentCapacity
        (used (k :: ls) + 1 + sizes (consumeParts semicolonEnds unfinished ts).made.values +
          sizes (consumeParts semicolonEnds unfinished ts).made.block.toList)
        (report (consumeParts semicolonEnds unfinished ts).findings
          ((ofLevels start
              (k.add (kept (consumeParts semicolonEnds unfinished ts).made) :: ls)).complete
            (consumeParts semicolonEnds unfinished ts).rest)) := by
  have hrest : ∀ u ∈ (consumePrelude semicolonEnds ts).rest, u.IsMaterial := fun u hu =>
    hts u (((consumePrelude semicolonEnds ts).last.trans (List.tail_suffix ts)).subset hu)
  rw [complete_prelude hf hts [] k ls (by simpa using hroom), consumeParts]
  simp only [List.nil_append, used_cons, sizes_nil, Nat.add_zero]
  rcases hend : (consumePrelude semicolonEnds ts).made.ending with _ | opening | _
  · simp only [afterPrelude, Option.toList_none, sizes_nil, Nat.add_zero]
  · -- the block goes to the rule, and the rule with it to the list
    have hblock := complete_opened (c := ⟨Bracket.curly.block, opening.start, 0⟩)
      (g := fun b => ofLevels start
        (k.add [(Level.mk f (consumePrelude semicolonEnds ts).made.values).treeWith start b] :: ls))
      (runsValues hrest) (encloses_attached opening _ k ls)
    simp only [afterPrelude, consumeBlock, Option.toList_some, sizes_cons, sizes_nil, Nat.add_zero]
    rw [push_ofLevels _ _ rfl, hblock, report_reserve, report_report, hf.block]
    refine reserve_trans (by omega) fun _ => ?_
    simp only [used_cons]
  · simp only [afterPrelude, Option.toList_none, sizes_nil, Nat.add_zero,
      rest_of_endOfText hend]
    rw [hf.atEnd, report_report]

lemma complete_atRule (t : Token) {ts : List Token} (hts : ∀ u ∈ ts, u.IsMaterial) (k : Level)
    (ls : List Level) :
    reserve componentCapacity (used (k :: ls) + 1)
        ((ofLevels start (⟨.atRule t, []⟩ :: k :: ls)).complete ts) =
      reserve componentCapacity (used (k :: ls) + (consumeAtRule t ts).made.size)
        (report (consumeAtRule t ts).findings
          ((ofLevels start (k.add [(consumeAtRule t ts).made] :: ls)).complete
            (consumeAtRule t ts).rest)) := by
  have hsize : (consumeAtRule t ts).made.size = _ := RuleParts.size_tree _ _ _
  rw [hsize, ← Nat.add_assoc, ← Nat.add_assoc]
  exact reserve_trans (by omega) fun hroom => complete_parts (heads_atRule t) hts k ls hroom

lemma complete_qualifiedRule {t : Token} {ts : List Token} (hts : ∀ u ∈ t :: ts, u.IsMaterial)
    (k : Level) (ls : List Level) :
    reserve componentCapacity (used (k :: ls) + 1)
        ((ofLevels start (⟨.qualifiedRule t, []⟩ :: k :: ls)).complete (t :: ts)) =
      reserve componentCapacity
        (used (k :: ls) + ((consumeQualifiedRule t ts).made.tree .qualifiedRule t.start).size)
        (report (consumeQualifiedRule t ts).findings
          ((ofLevels start
              (k.add (if (consumeQualifiedRule t ts).made.block.isSome then
                [(consumeQualifiedRule t ts).made.tree .qualifiedRule t.start] else []) ::
                ls)).complete
            (consumeQualifiedRule t ts).rest)) := by
  rw [RuleParts.size_tree, ← Nat.add_assoc, ← Nat.add_assoc]
  exact reserve_trans (by omega) fun hroom => complete_parts (heads_qualifiedRule t) hts k ls hroom

/-! ### Lists of rules -/

lemma feed_atKeyword {list : ListKind} {t : Token} (hi : ¬ list.ignores t.kind)
    (ha : t.kind = .atKeyword) (cs : List (Rose Component)) :
    (ofLevels start [⟨.ruleList list, cs⟩]).feed t =
      reserve componentCapacity (used [⟨.ruleList list, cs⟩] + 1)
        (.ok (ofLevels start [⟨.atRule t, []⟩, ⟨.ruleList list, cs⟩])) := by
  rw [feed, ofLevels_stack, List.map_cons]
  simp only [if_neg hi, if_pos ha]
  exact push_ofLevels _ _ rfl

/-- The first token of a qualified rule is given to its prelude at once. -/
lemma feed_qualified {list : ListKind} {t : Token} (hi : ¬ list.ignores t.kind)
    (ha : t.kind ≠ .atKeyword) (cs : List (Rose Component)) :
    (ofLevels start [⟨.ruleList list, cs⟩]).feed t =
      reserve componentCapacity (used [⟨.ruleList list, cs⟩] + 1)
        ((ofLevels start [⟨.qualifiedRule t, []⟩, ⟨.ruleList list, cs⟩]).feed t) := by
  rw [feed, ofLevels_stack, List.map_cons]
  simp only [if_neg hi, if_neg ha]
  rw [push_ofLevels _ (.qualifiedRule t) rfl, reserve_bind, ok_bind]
  rfl

def closed (start : ℕ) (cs : List (Rose Component)) (sheet : Sheet) :
    Except TreeError (ComponentBuilder × List Finding) :=
  .ok (.ofTree componentCapacity (.node ⟨.ruleList, start, 0⟩ (cs ++ sheet.rules)), sheet.findings)

lemma reserve_kept {cs : List (Rose Component)} {list : ListKind} (rule : Rose Component)
    (fs : List Finding) (more : Sheet) (rest : List Token)
    (hmore : used [⟨.ruleList list, cs ++ [rule]⟩] ≤ componentCapacity →
      (ofLevels start [⟨.ruleList list, cs ++ [rule]⟩]).complete rest =
        reserve componentCapacity (used [⟨.ruleList list, cs ++ [rule]⟩] + more.written)
          (closed start (cs ++ [rule]) more)) :
    reserve componentCapacity (used [⟨.ruleList list, cs⟩] + rule.size)
        (report fs ((ofLevels start [(Level.mk (.ruleList list) cs).add [rule]]).complete rest)) =
      reserve componentCapacity
        (used [⟨.ruleList list, cs⟩] +
          Sheet.written ⟨rule :: more.rules, more.dropped, fs ++ more.findings⟩)
        (closed start cs ⟨rule :: more.rules, more.dropped, fs ++ more.findings⟩) := by
  have hused := used_snoc (.ruleList list) cs rule []
  refine reserve_trans (by simp only [Sheet.written, sizes_cons]; omega) fun hroom => ?_
  rw [Level.add, hmore (by omega), report_reserve, hused]
  simp only [Sheet.written, sizes_cons, closed, report_ok, List.append_assoc, List.singleton_append,
    Nat.add_assoc]

/-- **Lists of rules**: the machine consumes them as recursion does. -/
theorem complete_rules (list : ListKind) {ts : List Token} (hts : ∀ t ∈ ts, t.IsMaterial)
    (cs : List (Rose Component)) (hroom : used [⟨.ruleList list, cs⟩] ≤ componentCapacity) :
    (ofLevels start [⟨.ruleList list, cs⟩]).complete ts =
      reserve componentCapacity (used [⟨.ruleList list, cs⟩] + (consumeRules list ts).written)
        (closed start cs (consumeRules list ts)) := by
  fun_induction consumeRules list ts generalizing cs with
  | case1 =>
    simp only [Sheet.written, sizes_nil, Nat.add_zero, reserve_of_le hroom, closed, List.append_nil]
    rw [complete_nil, ofLevels_stack, List.map_cons, unwind, ofLevels_builder, List.map_cons,
      List.map_nil, Builder.finishNode_root, ok_bind]
    rfl
  | case2 t ts hi ih =>
    rw [complete_cons, feed, ofLevels_stack, List.map_cons]
    simp only [if_pos hi]
    exact ih (fun u hu => hts u (by simp [hu])) cs hroom
  | case3 t ts hi ha rule more ih =>
    have hts' : ∀ u ∈ ts, u.IsMaterial := fun u hu => hts u (by simp [hu])
    have hrest : ∀ u ∈ rule.rest, u.IsMaterial := fun u hu => hts' u (rule.last.subset hu)
    rw [complete_cons, feed_atKeyword hi ha, reserve_bind, ok_bind, complete_atRule t hts']
    exact reserve_kept rule.made _ more _ (ih hrest _)
  | case4 t ts hi ha rule more tree hb ih =>
    have hrest : ∀ u ∈ rule.rest, u.IsMaterial :=
      fun u hu => hts u (by simp [rule.last.subset hu])
    rw [complete_cons, feed_qualified hi ha, reserve_bind, ← complete_cons,
      complete_qualifiedRule hts, if_pos hb]
    exact reserve_kept tree _ more _ (ih hrest _)
  | case5 t ts hi ha rule more tree hb ih =>
    have hrest : rule.rest = [] := rest_of_no_block (by simpa using hb)
    have hmore : more = ⟨[], [], []⟩ := by
      simp only [more, hrest]; rw [consumeRules]
    have hlist := ih (by simp [hrest]) cs hroom
    rw [complete_cons, feed_qualified hi ha, reserve_bind, ← complete_cons,
      complete_qualifiedRule hts, if_neg hb, add_nil]
    -- nothing follows, so the room that the list itself takes is there
    change reserve _ _ (report rule.findings
      ((ofLevels start [⟨.ruleList list, cs⟩]).complete rule.rest)) = _
    rw [hlist]
    change reserve _ _
      (report rule.findings (reserve _ (_ + more.written) (closed start cs more))) = _
    rw [hmore]
    simp only [Sheet.written, sizes_nil, Nat.add_zero, sizes_cons, reserve_of_le hroom,
      Nat.zero_add, closed, report_ok]
    rfl

end Machine

end Stylesheet
