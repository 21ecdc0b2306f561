import Stylesheet.Proofs.Reread
import Stylesheet.Proofs.Simulation

/-!
How the frames of the machine lie on each other. The list of rules is at the bottom, a rule right
on it, the block of a rule right on the rule, and everything else on something that takes values.
Every move of the machine keeps this, and as long as it holds no move fails for another reason
than lack of room.
-/

namespace Stylesheet

open Rose Level

namespace Frame

def IsRule (f : Frame) : Prop := ∃ t, f = .atRule t ∨ f = .qualifiedRule t

/-- What a frame may lie on. -/
def LiesOn (list : ListKind) (below : List Frame) : Frame → Prop
  | .ruleList l => l = list ∧ below = []
  | .atRule _ => below = [.ruleList list]
  | .qualifiedRule _ => below = [.ruleList list]
  | .block _ bracket true =>
    bracket = .curly ∧ ∃ rule : Frame, rule.IsRule ∧ below = [rule, .ruleList list]
  | .block _ _ false => ∃ top rest, below = top :: rest ∧ ∀ l, top ≠ .ruleList l
  | .function _ => ∃ top rest, below = top :: rest ∧ ∀ l, top ≠ .ruleList l

/-- Every frame lies on what it may lie on. -/
def Nested (list : ListKind) : List Frame → Prop
  | [] => True
  | f :: below => f.LiesOn list below ∧ Nested list below

/-- The token that opened the frame is a token of the text. -/
def StandsIn (text : List Char) : Frame → Prop
  | .ruleList _ => True
  | .atRule t => t.StandsIn text
  | .qualifiedRule t => t.StandsIn text
  | .block t _ _ => t.StandsIn text
  | .function t => t.StandsIn text

/-- The problem of a frame that is open at the end of the text, at the token that opened it. -/
def unclosed? : Frame → Option Finding
  | .ruleList _ => none
  | .atRule t => some ⟨.unclosedAtRule, t.span⟩
  | .qualifiedRule t => some ⟨.missingBlock, t.span⟩
  | .block t bracket _ => some ⟨.unclosedBlock bracket, t.span⟩
  | .function t => some ⟨.unclosedFunction, t.span⟩

lemma Nested.of_suffix {list : ListKind} {fs gs : List Frame} (h : Nested list gs)
    (hs : fs <:+ gs) : Nested list fs := by
  induction gs with
  | nil => rw [List.suffix_nil.mp hs]; trivial
  | cons g gs ih =>
    rcases List.suffix_cons_iff.mp hs with rfl | hs
    · exact h
    · exact ih h.2 hs

end Frame

/-- Levels as they are open while a text is read. -/
structure Level.Proper (list : ListKind) (text : List Char) (ls : List Level) : Prop where
  some : ls ≠ []
  nested : Frame.Nested list (ls.map Level.frame)
  stands : ∀ f ∈ ls.map Level.frame, f.StandsIn text
  room : used ls ≤ componentCapacity

namespace Machine

variable {start : ℕ} {list : ListKind} {text : List Char}

/-- A move comes to a machine with proper levels, of at most the given height, unless it fails
for lack of room. -/
def Moves (start : ℕ) (list : ListKind) (text : List Char) (height : ℕ)
    (x : Except TreeError Machine) : Prop :=
  x = .error (.overflow componentCapacity) ∨
    ∃ ls, x = .ok (ofLevels start ls) ∧ Proper list text ls ∧ ls.length ≤ height

lemma Moves.mono {m n : ℕ} {x : Except TreeError Machine} (h : Moves start list text m x)
    (hmn : m ≤ n) : Moves start list text n x := by
  rcases h with h | ⟨ls, hx, hls, hlen⟩
  · exact .inl h
  · exact .inr ⟨ls, hx, hls, Nat.le_trans hlen hmn⟩

lemma moves_push {ls : List Level} (h : Proper list text ls) {f : Frame} {kind : ComponentKind}
    {location : ℕ} (hf : f.component start = ⟨kind, location, 0⟩)
    (hon : f.LiesOn list (ls.map Level.frame)) (hstands : f.StandsIn text) :
    Moves start list text (ls.length + 1) ((ofLevels start ls).push f kind location) := by
  rw [push_ofLevels ls f hf, reserve]
  split_ifs with hroom
  · refine .inr ⟨⟨f, []⟩ :: ls, rfl, ?_, by simp⟩
    refine ⟨by simp, ⟨hon, h.nested⟩, ?_, by simpa using hroom⟩
    intro g hg
    rcases List.mem_cons.mp hg with rfl | hg
    · exact hstands
    · exact h.stands g hg
  · exact .inl rfl

lemma proper_start (list : ListKind) (text : List Char) :
    Proper list text [⟨.ruleList list, []⟩] where
  some := List.cons_ne_nil _ _
  nested := ⟨⟨rfl, rfl⟩, trivial⟩
  stands f hf := by
    rw [List.mem_singleton.mp hf]
    trivial
  room := show 1 ≤ componentCapacity by decide

lemma proper_of_closed {ls ks : List Level} (h : Proper list text ls) (hsome : ks ≠ [])
    (hframes : ks.map Level.frame <:+ ls.map Level.frame) (hused : used ks ≤ used ls) :
    Proper list text ks where
  some := hsome
  nested := h.nested.of_suffix hframes
  stands f hf := h.stands f (hframes.subset hf)
  room := Nat.le_trans hused h.room

lemma moves_value {l : Level} {ls : List Level} (h : Proper list text (l :: ls))
    (hvalues : ∀ k, l.frame ≠ .ruleList k) {t : Token} (ht : t.IsMaterial)
    (hstands : t.StandsIn text) :
    Moves start list text (ls.length + 2) ((ofLevels start (l :: ls)).value t) := by
  rcases ho : Bracket.ofOpener? t.kind with _ | bracket
  · by_cases hf : t.kind = .function
    · rw [value, ho]
      simp only [if_pos hf]
      exact moves_push h rfl ⟨_, _, rfl, hvalues⟩ hstands
    · rw [value_leaf l ls ht ho hf, reserve]
      split_ifs with hroom
      · refine .inr ⟨l.add [t.leaf] :: ls, rfl, ?_, by simp⟩
        refine ⟨by simp, h.nested, h.stands, ?_⟩
        simp only [used_cons, add_children, sizes_append, sizes_cons, Token.leaf, size_node,
          sizes_nil] at hroom ⊢
        omega
      · exact .inl rfl
  · rw [value, ho]
    exact moves_push h rfl ⟨_, _, rfl, hvalues⟩ hstands

lemma moves_prelude {l : Level} {ls : List Level} (h : Proper list text (l :: ls))
    (hrule : l.frame.IsRule) {t : Token} (ht : t.IsMaterial) (hstands : t.StandsIn text) :
    Moves start list text (ls.length + 2) ((ofLevels start (l :: ls)).preludeValue t) := by
  obtain ⟨o, ho⟩ := hrule
  have hbelow : ls.map Level.frame = [.ruleList list] := by
    have hon := h.nested.1
    rcases ho with ho | ho
    · rw [ho] at hon; exact hon
    · rw [ho] at hon; exact hon
  rw [preludeValue]
  split_ifs with hb
  · refine moves_push h rfl ⟨rfl, l.frame, ⟨o, ho⟩, ?_⟩ hstands
    rw [List.map_cons, hbelow]
  · refine moves_value h (fun k hk => ?_) ht hstands
    rcases ho with ho | ho <;> simp [ho] at hk

lemma moves_pop {l k : Level} {ls : List Level} (h : Proper list text (l :: k :: ls)) :
    Moves start list text (ls.length + 1) (.ok (ofLevels start (k.add [l.tree start] :: ls))) := by
  refine .inr ⟨_, rfl, proper_of_closed h (by simp) (List.suffix_cons _ _) ?_, by simp⟩
  simp only [used_cons, add_children, sizes_append, sizes_cons, Level.tree, size_node, sizes_nil]
  omega

lemma moves_popRule {l r k : Level} {ls : List Level} (h : Proper list text (l :: r :: k :: ls)) :
    Moves start list text (ls.length + 1)
      (.ok (ofLevels start (k.add [r.treeWith start (l.tree start)] :: ls))) := by
  refine .inr ⟨_, rfl, proper_of_closed h (by simp) ?_ ?_, by simp⟩
  · exact (List.suffix_cons _ _).trans (List.suffix_cons _ _)
  · simp only [used_cons, add_children, sizes_append, sizes_cons, Level.tree, treeWith, size_node,
      sizes_nil]
    omega

/-- A token goes to the innermost frame, which closes or takes it as a value. -/
lemma moves_feed {l : Level} {ls : List Level} (h : Proper list text (l :: ls))
    (hvalues : ∀ k, l.frame ≠ .ruleList k) {t : Token} (ht : t.IsMaterial)
    (hstands : t.StandsIn text) :
    Moves start list text (ls.length + 2) ((ofLevels start (l :: ls)).feed t) := by
  obtain ⟨f, cs⟩ := l
  have hon := h.nested.1
  cases f with
  | ruleList k => exact absurd rfl (hvalues k)
  | atRule o =>
    obtain ⟨k, rfl, -⟩ := List.map_eq_singleton_iff.mp hon
    by_cases hs : t.kind = .semicolon
    · rw [(heads_atRule o).semicolon cs k [] t ⟨rfl, hs⟩]
      exact (moves_pop h).mono (by simp)
    · rw [(heads_atRule o).inner cs [k] t (by simp [hs])]
      exact moves_prelude h ⟨o, .inl rfl⟩ ht hstands
  | qualifiedRule o => exact moves_prelude h ⟨o, .inr rfl⟩ ht hstands
  | block o bracket attached =>
    cases attached with
    | false =>
      obtain ⟨top, rest, hbelow, -⟩ := hon
      obtain ⟨k, ks, rfl, -, -⟩ := List.map_eq_cons_iff.mp hbelow
      by_cases hc : t.kind = bracket.closer
      · rw [(encloses_block o bracket k ks).close cs t hc]
        exact (moves_pop h).mono (by simp)
      · rw [(encloses_block o bracket k ks).inner cs t hc]
        exact moves_value h hvalues ht hstands
    | true =>
      obtain ⟨rfl, rule, -, hbelow⟩ := hon
      obtain ⟨r, ks, rfl, -, hks⟩ := List.map_eq_cons_iff.mp hbelow
      obtain ⟨k, rfl, -⟩ := List.map_eq_singleton_iff.mp hks
      by_cases hc : t.kind = Bracket.curly.closer
      · rw [(encloses_attached o r k []).close cs t hc]
        exact (moves_popRule h).mono (by simp)
      · rw [(encloses_attached o r k []).inner cs t hc]
        exact moves_value h hvalues ht hstands
  | function o =>
    obtain ⟨top, rest, hbelow, -⟩ := hon
    obtain ⟨k, ks, rfl, -, -⟩ := List.map_eq_cons_iff.mp hbelow
    by_cases hc : t.kind = .rightParen
    · rw [(encloses_function o k ks).close cs t hc]
      exact (moves_pop h).mono (by simp)
    · rw [(encloses_function o k ks).inner cs t hc]
      exact moves_value h hvalues ht hstands

/-! ### The end of the text -/

lemma abandon_ofLevels (l : Level) (ls : List Level) :
    (ofLevels start (l :: ls)).abandon = .ok (ofLevels start ls) := by
  rw [abandon, ofLevels_builder, List.map_cons, Builder.abandonNode_ofLayers]
  rfl

lemma closeFrame_ofLevels {l : Level} {ls : List Level} (h : Proper list text (l :: ls)) :
    (∃ tree : Rose Component, tree.size ≤ componentCapacity ∧
        (ofLevels start (l :: ls)).closeFrame l.frame = .ok ⟨.ofTree componentCapacity tree, []⟩) ∨
      Moves start list text ls.length ((ofLevels start (l :: ls)).closeFrame l.frame) := by
  obtain ⟨f, cs⟩ := l
  have hon := h.nested.1
  cases f with
  | ruleList k =>
    left
    obtain rfl : ls = [] := List.map_eq_nil_iff.mp hon.2
    refine ⟨.node ⟨.ruleList, start, 0⟩ cs, by simpa using h.room, ?_⟩
    rw [closeFrame, pop, ofLevels_builder, List.map_cons, List.map_nil, Builder.finishNode_root]
    rfl
  | atRule o =>
    right
    obtain ⟨k, rfl, -⟩ := List.map_eq_singleton_iff.mp hon
    rw [closeFrame, pop_ofLevels]
    exact moves_pop h
  | qualifiedRule o =>
    right
    obtain ⟨k, rfl, -⟩ := List.map_eq_singleton_iff.mp hon
    rw [closeFrame, abandon_ofLevels]
    refine .inr ⟨_, rfl, proper_of_closed h (by simp) (List.suffix_cons _ _) ?_, by simp⟩
    simp only [used_cons]
    omega
  | block o bracket attached =>
    right
    cases attached with
    | false =>
      obtain ⟨top, rest, hbelow, -⟩ := hon
      obtain ⟨k, ks, rfl, -, -⟩ := List.map_eq_cons_iff.mp hbelow
      rw [closeFrame, popBlock_ofLevels]
      exact moves_pop h
    | true =>
      obtain ⟨rfl, rule, -, hbelow⟩ := hon
      obtain ⟨r, ks, rfl, -, hks⟩ := List.map_eq_cons_iff.mp hbelow
      obtain ⟨k, rfl, -⟩ := List.map_eq_singleton_iff.mp hks
      rw [closeFrame, popBlock_attached]
      exact (moves_popRule h).mono (by simp)
  | function o =>
    right
    obtain ⟨top, rest, hbelow, -⟩ := hon
    obtain ⟨k, ks, rfl, -, -⟩ := List.map_eq_cons_iff.mp hbelow
    rw [closeFrame, pop_ofLevels]
    exact moves_pop h

lemma complete_closeFrame {m : Machine} {f : Frame} {below : List Frame}
    (hstack : m.stack = f :: below) (hon : f.LiesOn list below) :
    m.complete [] = m.closeFrame f >>= fun m => report f.unclosed?.toList (m.complete []) := by
  simp only [complete_nil, hstack]
  cases f with
  | ruleList k =>
    rw [unwind, closeFrame, pop, hstack]
    rcases m.builder.finishNode with e | ⟨i, b⟩
    · rfl
    · exact (report_nil _).symm
  | atRule o =>
    rw [unwind, closeFrame, pop, hstack]
    rcases m.builder.finishNode with e | ⟨i, b⟩ <;> rfl
  | qualifiedRule o =>
    rw [unwind, closeFrame, abandon, hstack]
    rcases m.builder.abandonNode with e | b <;> rfl
  | block o bracket attached =>
    cases attached with
    | false =>
      rw [unwind, closeFrame, popBlock, hstack]
      · rcases closeBlock m.builder false with e | b <;> rfl
      · simp
    | true =>
      obtain ⟨-, rule, -, rfl⟩ := hon
      rw [unwind, closeFrame, popBlock, hstack]
      rcases closeBlock m.builder true with e | b <;> rfl
  | function o =>
    rw [unwind, closeFrame, pop, hstack]
    rcases m.builder.finishNode with e | ⟨i, b⟩ <;> rfl

/-! ### Frames and open nodes -/

/-- What holds of a machine at every turn: it has as many frames as open nodes, the frames lie on
what they may lie on, and the nodes are theirs. -/
structure Sound (start : ℕ) (list : ListKind) (m : Machine) : Prop where
  depth : m.stack.length = m.builder.depth
  nested : Frame.Nested list m.stack
  /-- Every frame owns the open node of its own component. -/
  owns : List.Forall₂ (fun f i => m.builder.slots[i]? = some ⟨1, f.component start⟩)
    m.stack m.builder.opened
  /-- An inner node lies behind the outer ones, so the distance from a rule to its block is
  positive. -/
  behind : m.builder.opened.Pairwise (· > ·)
  room : m.builder.len ≤ componentCapacity

lemma opened_lt (ls : List (Layer Component)) :
    ∀ i ∈ Layer.opened ls, i < (Layer.slots ls).length := by
  induction ls with
  | nil => simp [Layer.opened]
  | cons l ls ih =>
    intro i hi
    rw [Layer.length_slots_cons]
    rcases List.mem_cons.mp hi with rfl | hi
    · omega
    · have := ih i hi
      omega

lemma pairwise_opened (ls : List (Layer Component)) : (Layer.opened ls).Pairwise (· > ·) := by
  induction ls with
  | nil => exact List.Pairwise.nil
  | cons l ls ih => exact List.Pairwise.cons (opened_lt ls) ih

lemma owns_ofLevels (start : ℕ) (ls : List Level) :
    List.Forall₂ (fun f i => (Layer.slots (ls.map (layer start)))[i]? = some ⟨1, f.component start⟩)
      (ls.map Level.frame) (Layer.opened (ls.map (layer start))) := by
  induction ls with
  | nil => exact .nil
  | cons l ls ih =>
    refine .cons ?_ ?_
    · simp [Layer.slots, layer]
    · -- what is written later does not touch the slots below
      refine ih.imp fun f i hi => ?_
      rw [List.map_cons, Layer.slots, List.getElem?_append_left]
      · exact hi
      · exact (List.getElem?_eq_some_iff.mp hi).1

lemma sound_ofLevels {ls : List Level} (h : Proper list text ls) :
    (ofLevels start ls).Sound start list where
  depth := by simp [Builder.depth, Builder.ofLayers]
  nested := h.nested
  owns := owns_ofLevels start ls
  behind := pairwise_opened _
  room := by
    have := h.room
    rwa [← length_slots_layers start] at this

lemma sound_ofTree {tree : Rose Component} (h : tree.size ≤ componentCapacity) :
    Sound start list ⟨.ofTree componentCapacity tree, []⟩ where
  depth := rfl
  nested := trivial
  owns := .nil
  behind := .nil
  room := by
    rw [← length_layout] at h
    exact h

end Machine

end Stylesheet
