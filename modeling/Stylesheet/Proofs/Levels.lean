import Stylesheet.Proofs.Descent
import Stylesheet.Proofs.Draft

/-!
The machine as a stack of levels: an open frame together with the trees that are finished under
it. The component of a frame follows from the frame, so such a stack determines both the frames
and the builder, and each move of the machine is a move on it.
-/

namespace Stylesheet

open Rose

/-- The component whose node an open frame has, in a sheet that starts at `start`. -/
def Frame.component (start : ℕ) : Frame → Component
  | .ruleList _ => ⟨.ruleList, start, 0⟩
  | .atRule t => ⟨.atRule, t.start, 0⟩
  | .qualifiedRule t => ⟨.qualifiedRule, t.start, 0⟩
  | .block t bracket _ => ⟨bracket.block, t.start, 0⟩
  | .function t => ⟨.function, t.start, 0⟩

/-- An open frame and the trees finished under it. -/
structure Level where
  frame : Frame
  children : List (Rose Component)

namespace Level

def layer (start : ℕ) (l : Level) : Layer Component := ⟨l.frame.component start, l.children⟩

def add (l : Level) (ts : List (Rose Component)) : Level := ⟨l.frame, l.children ++ ts⟩

def tree (start : ℕ) (l : Level) : Rose Component := .node (l.frame.component start) l.children

/-- What a rule becomes when its block is closed. -/
def treeWith (start : ℕ) (l : Level) (block : Rose Component) : Rose Component :=
  .node { l.frame.component start with extra := 1 + sizes l.children } (l.children ++ [block])

/-- The number of slots that open levels take. -/
def used : List Level → ℕ
  | [] => 0
  | l :: ls => used ls + 1 + sizes l.children

@[simp] lemma used_nil : used [] = 0 := rfl
@[simp] lemma used_cons (l : Level) (ls : List Level) :
    used (l :: ls) = used ls + 1 + sizes l.children := rfl
lemma used_snoc (f : Frame) (cs : List (Rose Component)) (t : Rose Component) (ls : List Level) :
    used (⟨f, cs ++ [t]⟩ :: ls) = used (⟨f, cs⟩ :: ls) + t.size := by
  simp only [used_cons, sizes_append, sizes_cons, sizes_nil]; omega

@[simp] lemma add_frame (l : Level) (ts : List (Rose Component)) : (l.add ts).frame = l.frame := rfl
@[simp] lemma add_children (l : Level) (ts : List (Rose Component)) :
    (l.add ts).children = l.children ++ ts := rfl
@[simp] lemma add_nil (l : Level) : l.add [] = l := by simp [add]
@[simp] lemma add_add (l : Level) (ts us : List (Rose Component)) :
    (l.add ts).add us = l.add (ts ++ us) := by simp [add]

lemma layer_add (start : ℕ) (l : Level) (ts : List (Rose Component)) :
    (l.add ts).layer start = (l.layer start).add ts := rfl

lemma length_slots_layers (start : ℕ) (ls : List Level) :
    (Layer.slots (ls.map (layer start))).length = used ls := by
  induction ls with
  | nil => rfl
  | cons l ls ih => rw [List.map_cons, Layer.length_slots_cons, ih, used_cons]; rfl

end Level

namespace Machine

open Level

variable (start : ℕ)

/-- The machine on which the given levels are open, innermost first. -/
def ofLevels (ls : List Level) : Machine :=
  ⟨.ofLayers componentCapacity (ls.map (layer start)), ls.map Level.frame⟩

@[simp] lemma ofLevels_stack (ls : List Level) :
    (ofLevels start ls).stack = ls.map Level.frame := rfl

@[simp] lemma ofLevels_builder (ls : List Level) :
    (ofLevels start ls).builder = .ofLayers componentCapacity (ls.map (layer start)) := rfl

variable {start}

lemma push_ofLevels (ls : List Level) (f : Frame) {kind : ComponentKind} {location : ℕ}
    (hf : f.component start = ⟨kind, location, 0⟩) :
    (ofLevels start ls).push f kind location =
      reserve componentCapacity (used ls + 1) (.ok (ofLevels start (⟨f, []⟩ :: ls))) := by
  rw [push, ofLevels_builder, Builder.startNode_ofLayers, reserve_bind, ok_bind,
    length_slots_layers, ← hf]
  rfl

lemma start_eq_ofLevels (list : ListKind) :
    Machine.start list start = .ok (ofLevels start [⟨.ruleList list, []⟩]) :=
  @push_ofLevels start [] (.ruleList list) _ _ rfl

lemma finishNode_ofLevels (l k : Level) (ls : List Level) :
    (Builder.ofLayers componentCapacity ((l :: k :: ls).map (layer start))).finishNode =
      .ok (used (k :: ls),
        .ofLayers componentCapacity ((k.add [l.tree start] :: ls).map (layer start))) := by
  rw [List.map_cons, List.map_cons, Builder.finishNode_ofLayers, ← List.map_cons,
    length_slots_layers]
  rfl

lemma pop_ofLevels (l k : Level) (ls : List Level) :
    (ofLevels start (l :: k :: ls)).pop = .ok (ofLevels start (k.add [l.tree start] :: ls)) := by
  rw [pop, ofLevels_builder, finishNode_ofLevels]
  rfl

lemma closeBlock_ofLevels (l k : Level) (ls : List Level) :
    closeBlock (.ofLayers componentCapacity ((l :: k :: ls).map (layer start))) false =
      .ok (.ofLayers componentCapacity ((k.add [l.tree start] :: ls).map (layer start))) := by
  rw [closeBlock, finishNode_ofLevels]
  rfl

/-- An attached block is closed with its rule, which is told where the block is. -/
lemma closeBlock_attached (l r k : Level) (ls : List Level) :
    closeBlock (.ofLayers componentCapacity ((l :: r :: k :: ls).map (layer start))) true =
      .ok (.ofLayers componentCapacity
        ((k.add [r.treeWith start (l.tree start)] :: ls).map (layer start))) := by
  have hextra : used (r :: k :: ls) - used (k :: ls) = 1 + sizes r.children := by
    simp only [used_cons]; omega
  rw [closeBlock, finishNode_ofLevels, ok_bind]
  simp only [if_true]
  rw [finishNode_ofLevels, ok_bind]
  simp only [hextra, List.map_cons, layer_add]
  rw [← length_slots_layers start (k :: ls), List.map_cons]
  exact Builder.modifyValue_ofLayers (k.layer start) _ _ _ _

lemma popBlock_ofLevels (l k : Level) (ls : List Level) :
    (ofLevels start (l :: k :: ls)).popBlock false =
      .ok (ofLevels start (k.add [l.tree start] :: ls)) := by
  rw [popBlock, ofLevels_builder, closeBlock_ofLevels]
  rfl

lemma popBlock_attached (l r k : Level) (ls : List Level) :
    (ofLevels start (l :: r :: k :: ls)).popBlock true =
      .ok (ofLevels start (k.add [r.treeWith start (l.tree start)] :: ls)) := by
  rw [popBlock, ofLevels_builder, closeBlock_attached]
  rfl

lemma exists_leaf {t : Token} (hm : t.IsMaterial) (ho : Bracket.ofOpener? t.kind = none)
    (hf : t.kind ≠ .function) : ∃ kind, ComponentKind.ofToken? t.kind = some kind := by
  obtain ⟨heof, hcomments⟩ := hm
  rcases hk : t.kind with _ | _
  all_goals first
    | exact ⟨_, rfl⟩
    | simp_all [Bracket.ofOpener?]

lemma value_opener (ls : List Level) {t : Token} {bracket : Bracket}
    (h : Bracket.ofOpener? t.kind = some bracket) :
    (ofLevels start ls).value t = reserve componentCapacity (used ls + 1)
      (.ok (ofLevels start (⟨.block t bracket false, []⟩ :: ls))) := by
  rw [value, h]
  exact push_ofLevels ls _ rfl

lemma value_function (ls : List Level) {t : Token} (h : t.kind = .function) :
    (ofLevels start ls).value t = reserve componentCapacity (used ls + 1)
      (.ok (ofLevels start (⟨.function t, []⟩ :: ls))) := by
  rw [value, h]
  exact push_ofLevels ls _ rfl

lemma value_leaf (l : Level) (ls : List Level) {t : Token} (hm : t.IsMaterial)
    (ho : Bracket.ofOpener? t.kind = none) (hf : t.kind ≠ .function) :
    (ofLevels start (l :: ls)).value t = reserve componentCapacity (used (l :: ls) + 1)
      (.ok (ofLevels start (l.add [t.leaf] :: ls))) := by
  obtain ⟨kind, hk⟩ := exists_leaf hm ho hf
  rw [value, ho]
  simp only [if_neg hf, hk, ofLevels_builder, List.map_cons]
  rw [Builder.leaf_ofLayers, reserve_bind, ok_bind, ← List.map_cons, length_slots_layers,
    Token.leaf, hk]
  rfl

end Machine

end Stylesheet
