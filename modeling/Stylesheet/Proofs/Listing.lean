import Mathlib.Data.List.Forall2
import Stylesheet.Proofs.Navigation
import Stylesheet.Proofs.Quoting

/-!
Trees read back from their listing. A line starts with blanks for the depth, with the kind and with
the place of its component, and none of them can be taken for what follows it. The text of a leaf
may look like anything but never leaves its line, and it is known from the kind and the place. The
skips are not in the listing; they are how many of the lines behind are deeper.
-/

namespace Stylesheet

open Text Rose

/-! ### Where a part ends -/

section

variable {β : Type} {p : β → Bool} {u u' v v' : List β}

/-- Of `u ++ v` the front that is `p` is `u`. -/
structure StopsAt (p : β → Bool) (u v : List β) : Prop where
  front : ∀ b ∈ u, p b
  stop : ∀ b ∈ v.head?, ¬ p b

lemma StopsAt.takeWhile_eq (h : StopsAt p u v) : (u ++ v).takeWhile p = u := by
  have hnil : v.takeWhile p = [] := by
    rcases v with _ | ⟨b, v⟩
    · rfl
    · exact List.takeWhile_cons_of_neg (h.stop b rfl)
  rw [List.takeWhile_append_of_pos h.front, hnil, List.append_nil]

lemma StopsAt.inj (h : StopsAt p u v) (h' : StopsAt p u' v') (heq : u ++ v = u' ++ v') :
    u = u' ∧ v = v' := by
  have hu : u = u' := by rw [← h.takeWhile_eq, heq, h'.takeWhile_eq]
  subst hu
  exact ⟨rfl, List.append_cancel_left heq⟩

end

/-! ### Trees from their depths -/

namespace Rose

variable {α : Type}

/-- The slots of a forest, from its values in preorder with their depths. -/
def regrow : List (ℕ × α) → List (Slot α)
  | [] => []
  | (d, v) :: r => ⟨1 + (r.takeWhile fun p => d < p.1).length, v⟩ :: regrow r

def outline (d : ℕ) (ts : List (Rose α)) : List (ℕ × α) :=
  (depthsAll d ts).zip ((layouts ts).map Slot.value)

@[simp] lemma outline_nil (d : ℕ) : outline d ([] : List (Rose α)) = [] := rfl

@[simp] lemma outline_cons (d : ℕ) (v : α) (ts us : List (Rose α)) :
    outline d (node v ts :: us) = (d, v) :: (outline (d + 1) ts ++ outline d us) := by
  rw [outline, outline, outline, ← List.zip_append (by simp)]
  simp

@[simp] lemma length_outline (d : ℕ) (ts : List (Rose α)) : (outline d ts).length = sizes ts := by
  simp [outline]

lemma le_of_mem_outline {d : ℕ} {p : ℕ × α} {ts : List (Rose α)} (h : p ∈ outline d ts) :
    d ≤ p.1 :=
  le_of_mem_depthsAll (List.of_mem_zip h).1

lemma stopsAt_outline {d : ℕ} (ts : List (Rose α)) {r : List (ℕ × α)}
    (hr : ∀ p ∈ r.head?, p.1 ≤ d) : StopsAt (fun p => d < p.1) (outline (d + 1) ts) r where
  front _ hp := decide_eq_true (le_of_mem_outline hp)
  stop p hp := by simpa using hr p hp

/-- **A forest grows again** from its outline, also with something behind it that is no deeper. -/
theorem regrow_outline (d : ℕ) (ts : List (Rose α)) {r : List (ℕ × α)}
    (hr : ∀ p ∈ r.head?, p.1 ≤ d) : regrow (outline d ts ++ r) = layouts ts ++ regrow r := by
  induction ts using forest_induction generalizing d r with
  | nil => rfl
  | cons v ts us ihts ihus =>
    have hbehind : ∀ p ∈ (outline d us ++ r).head?, p.1 ≤ d := by
      rcases us with _ | ⟨⟨w, ws⟩, us⟩
      · exact hr
      · simp
    rw [outline_cons, List.cons_append, List.append_assoc, regrow,
      (stopsAt_outline ts hbehind).takeWhile_eq, length_outline,
      ihts (d + 1) (fun p hp => Nat.le_succ_of_le (hbehind p hp)), ihus d hr]
    simp

lemma regrow_outline_self (d : ℕ) (ts : List (Rose α)) : regrow (outline d ts) = layouts ts := by
  have h := regrow_outline d ts (r := []) (by simp)
  rwa [List.append_nil, regrow, List.append_nil] at h

end Rose

/-! ### Lines -/

/-- Something that ends with a newline and has none before. -/
def IsLine (l : List Char) : Prop := ∃ body, '\n' ∉ body ∧ l = body ++ ['\n']

lemma stopsAt_newline {body : List Char} (h : '\n' ∉ body) (v : List Char) :
    StopsAt (· ≠ '\n') body ('\n' :: v) where
  front _ hc := decide_eq_true (ne_of_mem_of_not_mem hc h)
  stop := by simp

/-- **A text is cut into lines** in one way. -/
theorem eq_of_flatten_eq {ls ls' : List (List Char)} (hls : ∀ l ∈ ls, IsLine l)
    (hls' : ∀ l ∈ ls', IsLine l) (h : ls.flatten = ls'.flatten) : ls = ls' := by
  induction ls generalizing ls' with
  | nil =>
    rcases ls' with _ | ⟨l', ls'⟩
    · rfl
    · obtain ⟨body, -, rfl⟩ := hls' l' List.mem_cons_self
      simp at h
  | cons l ls ih =>
    obtain ⟨body, hbody, rfl⟩ := hls l List.mem_cons_self
    rcases ls' with _ | ⟨l', ls'⟩
    · simp at h
    · obtain ⟨body', hbody', rfl⟩ := hls' l' List.mem_cons_self
      rw [List.flatten_cons, List.flatten_cons, List.append_assoc, List.append_assoc] at h
      obtain ⟨rfl, hrest⟩ := (stopsAt_newline hbody _).inj (stopsAt_newline hbody' _) h
      rw [ih (fun l hl => hls l (List.mem_cons_of_mem _ hl))
        (fun l hl => hls' l (List.mem_cons_of_mem _ hl)) (List.cons.inj hrest).2]

/-! ### The parts of a line -/

lemma toDigits_injective : Function.Injective (Nat.toDigits 10) := by
  intro n m h
  rw [← @Nat.ofDigitChars_ten_toDigits n, h, Nat.ofDigitChars_ten_toDigits]

lemma newline_notMem_toDigits {b : ℕ} (hb : 1 < b) (n : ℕ) : '\n' ∉ Nat.toDigits b n :=
  notMem_toDigits (fun _ => Nat.digitChar_ne '\n' (by decide)) hb n

lemma newline_notMem_literalChar (c : Char) : '\n' ∉ literalChar c := by
  rw [literalChar]
  rcases hname : escapeNames.lookup c with _ | n
  · rcases hcontrol : isControl c with _ | _
    · rintro h
      obtain rfl := List.mem_singleton.mp h
      cases hcontrol
    · simp [newline_notMem_toDigits]
  · have hnames : ∀ p ∈ escapeNames, '\n' ≠ p.2 := by decide
    obtain ⟨before, behind, hmem, -⟩ := List.lookup_eq_some_iff.mp hname
    have hn := hnames (c, n) (by simp [hmem])
    simpa using hn

lemma newline_notMem_literal (cs : List Char) : '\n' ∉ literal cs := by
  simp [literal, newline_notMem_literalChar]

namespace ComponentKind

lemma ofName?_name (k : ComponentKind) : ofName? k.name = some k := by
  cases k <;> decide

lemma name_injective : Function.Injective name := by
  intro k k' h
  rw [← Option.some.injEq, ← ofName?_name, h, ofName?_name]

end ComponentKind

namespace Component

variable {s : Source} {c c' : Component} {leaf : Option (List Char)} {depth depth' : ℕ}

/-- What the line of a component shows behind its place. -/
def remarks (c : Component) (leaf : Option (List Char)) : List Char :=
  (if c.extra = 0 then [] else " extra=".toList ++ Nat.toDigits 10 c.extra) ++
    match leaf with
    | some cs => ' ' :: literal cs
    | none => []

lemma line_eq (c : Component) (depth : ℕ) (leaf : Option (List Char)) :
    c.line depth leaf = List.replicate (2 * depth) ' ' ++ (c.kind.name.toList ++
      ('@' :: (Nat.toDigits 10 c.location ++ (c.remarks leaf ++ ['\n'])))) := by
  cases leaf <;> simp only [line, remarks, List.append_assoc, List.cons_append]

lemma newline_notMem_remarks : '\n' ∉ c.remarks leaf := by
  unfold remarks
  rw [List.mem_append, not_or]
  refine ⟨?_, ?_⟩
  · split_ifs <;> simp [newline_notMem_toDigits]
  · rcases leaf with _ | cs <;> simp [newline_notMem_literal]

lemma isLine_line : IsLine (c.line depth leaf) := by
  have hblank : '\n' ∉ List.replicate (2 * depth) ' ' := fun h =>
    absurd (List.eq_of_mem_replicate h) (by decide)
  have hname : '\n' ∉ c.kind.name.toList := fun h =>
    absurd (ComponentKind.mem_name h) (by decide)
  have hplace : '\n' ∉ Nat.toDigits 10 c.location := newline_notMem_toDigits (by decide) _
  refine ⟨List.replicate (2 * depth) ' ' ++ (c.kind.name.toList ++
    ('@' :: (Nat.toDigits 10 c.location ++ c.remarks leaf))), ?_, ?_⟩
  · have hmark : '\n' ≠ '@' := by decide
    exact List.not_mem_append hblank (List.not_mem_append hname
      (List.not_mem_cons_of_ne_of_not_mem hmark
        (List.not_mem_append hplace newline_notMem_remarks)))
  · rw [line_eq]
    simp only [List.append_assoc, List.cons_append]

lemma stopsAt_blanks (k : ComponentKind) (depth : ℕ) (v : List Char) :
    StopsAt (· = ' ') (List.replicate (2 * depth) ' ') (k.name.toList ++ '@' :: v) where
  front _ hc := decide_eq_true (List.eq_of_mem_replicate hc)
  stop d hd := by
    rcases hname : k.name.toList with _ | ⟨n, ns⟩
    · rw [hname] at hd
      cases hd
      decide
    · have hmem : n ∈ k.name.toList := hname ▸ List.mem_cons_self
      rw [hname] at hd
      obtain rfl : n = d := Option.some.inj hd
      rw [decide_eq_true_eq]
      rintro rfl
      exact absurd (ComponentKind.mem_name hmem) (by decide)

lemma stopsAt_name (k : ComponentKind) (v : List Char) :
    StopsAt (· ≠ '@') k.name.toList ('@' :: v) where
  front d hd := by
    rw [decide_eq_true_eq]
    rintro rfl
    exact absurd (ComponentKind.mem_name hd) (by decide)
  stop := by simp

lemma stopsAt_place (c : Component) (leaf : Option (List Char)) (n : ℕ) :
    StopsAt Char.isDigit (Nat.toDigits 10 n) (c.remarks leaf ++ ['\n']) where
  front _ := Nat.isDigit_of_mem_toDigits (by decide) (by decide)
  stop := by
    unfold remarks
    split_ifs
    · cases leaf <;> simp
    · simp

/-- Behind the same text of a leaf there is room for one number only. -/
lemma extra_eq_of_remarks (h : c.remarks leaf = c'.remarks leaf) : c.extra = c'.extra := by
  have hextra := List.append_cancel_right h
  split_ifs at hextra with hzero hzero' hzero'
  · rw [hzero, hzero']
  · simp at hextra
  · simp at hextra
  · exact toDigits_injective (List.append_cancel_left hextra)

/-- **A line** shows how deep its component is and which one it is, if the text of a leaf is known
from the kind and the place. -/
theorem line_inj {leaf' : Option (List Char)} (h : c.line depth leaf = c'.line depth' leaf')
    (hleaf : c.kind = c'.kind → c.location = c'.location → leaf = leaf') :
    depth = depth' ∧ c = c' := by
  -- each part ends at a character that cannot be in it, so they can be cut off one by one
  rw [line_eq, line_eq] at h
  obtain ⟨hblanks, h⟩ := (stopsAt_blanks _ _ _).inj (stopsAt_blanks _ _ _) h
  obtain ⟨hname, h⟩ := (stopsAt_name _ _).inj (stopsAt_name _ _) h
  obtain ⟨hplace, h⟩ := (stopsAt_place _ _ _).inj (stopsAt_place _ _ _) (List.cons.inj h).2
  have hdepth : 2 * depth = 2 * depth' := by simpa using congrArg List.length hblanks
  have hkind : c.kind = c'.kind := ComponentKind.name_injective (String.toList_inj.mp hname)
  have hlocation : c.location = c'.location := toDigits_injective hplace
  obtain rfl := hleaf hkind hlocation
  have hextra := extra_eq_of_remarks (List.append_cancel_right h)
  obtain ⟨kind, location, extra⟩ := c
  obtain ⟨kind', location', extra'⟩ := c'
  obtain rfl : kind = kind' := hkind
  obtain rfl : location = location' := hlocation
  obtain rfl : extra = extra' := hextra
  exact ⟨by omega, rfl⟩

/-- The line `l` of a listing is for the component `p.2` at the depth `p.1`. -/
def Lists (s : Source) (p : ℕ × Component) (l : List Char) : Prop :=
  ∃ leaf, p.2.leafText? s = .ok leaf ∧ l = p.2.line p.1 leaf

lemma isLine_of_lists {ps : List (ℕ × Component)} {lines : List (List Char)}
    (h : List.Forall₂ (Lists s) ps lines) : ∀ l ∈ lines, IsLine l := by
  induction h with
  | nil => simp
  | cons hline _ ih =>
    obtain ⟨leaf, -, rfl⟩ := hline
    exact List.forall_mem_cons.mpr ⟨isLine_line, ih⟩

lemma leafText?_congr (s : Source) (hkind : c.kind = c'.kind)
    (hlocation : c.location = c'.location) : c.leafText? s = c'.leafText? s := by
  unfold leafText?
  rw [hkind, hlocation]

lemma leftUnique_lists (s : Source) : Relator.LeftUnique (Lists s) := by
  rintro ⟨depth, c⟩ ⟨depth', c'⟩ l ⟨leaf, hleaf, rfl⟩ ⟨leaf', hleaf', hline⟩
  obtain ⟨rfl, rfl⟩ := line_inj hline fun hkind hlocation => by
    rw [leafText?_congr s hkind hlocation, hleaf'] at hleaf
    exact (Except.ok.inj hleaf).symm
  rfl

end Component

/-! ### The listing -/

lemma forall₂_of_mapM {ε α β : Type} {f : α → Except ε β} {as : List α} {bs : List β}
    (h : as.mapM f = .ok bs) : List.Forall₂ (fun a b => f a = .ok b) as bs := by
  induction as generalizing bs with
  | nil =>
    cases h
    exact .nil
  | cons a as ih =>
    rw [List.mapM_cons] at h
    obtain ⟨b, hb, h⟩ := exists_of_bind_eq_ok h
    obtain ⟨bs', hbs, h⟩ := exists_of_bind_eq_ok h
    cases h
    exact .cons hb (ih hbs)

/-- **The walk from the root** visits the slots one after the other. -/
lemma preorder_root {cap : ℕ} {α : Type} (tree : Option (Rose α))
    (hcap : sizes tree.toList ≤ cap) :
    preorder cap ((layouts tree.toList).map Slot.skip) 0 =
      .ok ((List.range' 0 (sizes tree.toList)).zip (depthsAll 0 tree.toList)) := by
  rcases tree with _ | ⟨v, ts⟩
  · rfl
  · rw [preorder_layouts (t := .node v ts) rfl hcap]
    simp

namespace ComponentTree

variable {t : ComponentTree} {s : Source}

lemma lists_of_dumpLine {i depth : ℕ} {c : Component} {l : List Char}
    (hc : t.components[i]? = some c) (h : t.dumpLine s i depth = .ok l) :
    Component.Lists s (depth, c) l := by
  rw [dumpLine, t.get_of_getElem? hc, mapError_ok, ok_bind] at h
  obtain ⟨leaf, hleaf, h⟩ := exists_of_bind_eq_ok h
  cases h
  exact ⟨leaf, ok_of_mapError hleaf, rfl⟩

lemma lists_of_walk {i : ℕ} {cs : List Component} {depths : List ℕ} {lines : List (List Char)}
    (hcs : t.components.drop i = cs) (hdepths : depths.length = cs.length)
    (h : List.Forall₂ (fun p l => t.dumpLine s p.1 p.2 = .ok l)
      ((List.range' i cs.length).zip depths) lines) :
    List.Forall₂ (Component.Lists s) (depths.zip cs) lines := by
  induction cs generalizing i depths lines with
  | nil =>
    cases h
    rw [List.zip_nil_right]
    exact .nil
  | cons c cs ih =>
    rcases depths with _ | ⟨depth, depths⟩
    · cases hdepths
    · rw [List.length_cons, List.range'_succ, List.zip_cons_cons] at h
      obtain ⟨l, lines, hline, hlines, rfl⟩ := List.forall₂_cons_left_iff.mp h
      have hc : t.components[i]? = some c := by
        rw [← List.head?_drop, hcs]
        rfl
      have hnext : t.components.drop (i + 1) = cs := by
        rw [← List.drop_drop, hcs]
        rfl
      exact .cons (lists_of_dumpLine hc hline) (ih hnext (Nat.succ.inj hdepths) hlines)

lemma exists_lines {d : List Char} (h : Built componentCapacity t.tree) (hd : t.dump s = .ok d) :
    ∃ ts lines, t.tree.slots = layouts ts ∧ d = lines.flatten ∧
      List.Forall₂ (Component.Lists s) (outline 0 ts) lines := by
  obtain ⟨tree, htree, hcap⟩ := h.exists_layouts
  have hlen : t.components.length = sizes tree.toList := by
    rw [components, SkipTree.values, htree, List.length_map, length_layouts]
  have hwalk : t.preorder 0 =
      .ok ((List.range' 0 (sizes tree.toList)).zip (depthsAll 0 tree.toList)) := by
    rw [SkipTree.len, htree, length_layouts] at hcap
    rw [preorder, SkipTree.preorder, SkipTree.skips, htree]
    exact preorder_root tree hcap
  rw [dump, hwalk, mapError_ok, ok_bind] at hd
  obtain ⟨lines, hlines, hd⟩ := exists_of_bind_eq_ok hd
  cases hd
  rw [← hlen] at hlines
  have hall := lists_of_walk List.drop_zero (by simp [hlen]) (forall₂_of_mapM hlines)
  rw [components, SkipTree.values, htree] at hall
  exact ⟨tree.toList, lines, htree, rfl, hall⟩

/-- **The listing shows the tree.** It has one line for each component, and no other tree that was
built has the same one: skips, kinds, places and numbers can all be read back from it. -/
theorem listing_determines_tree {d : List Char} (h : Built componentCapacity t.tree)
    (hd : t.dump s = .ok d) :
    (∃ lines : List (List Char), d = lines.flatten ∧ lines.length = t.tree.len ∧
        ∀ l ∈ lines, IsLine l) ∧
      ∀ u : ComponentTree, Built componentCapacity u.tree → u.dump s = .ok d → u = t := by
  obtain ⟨ts, lines, hts, rfl, hall⟩ := exists_lines h hd
  have hlines := Component.isLine_of_lists hall
  refine ⟨⟨lines, rfl, ?_, hlines⟩, fun u hu hud => ?_⟩
  · rw [← hall.length_eq, length_outline, SkipTree.len, hts, length_layouts]
  · obtain ⟨us, lines', hus, hflat, hall'⟩ := exists_lines hu hud
    -- the same text has the same lines, these have one outline, and one forest grows from it
    obtain rfl := eq_of_flatten_eq hlines (Component.isLine_of_lists hall') hflat
    have houtline : outline 0 us = outline 0 ts :=
      List.left_unique_forall₂' (Component.leftUnique_lists s) hall' hall
    have hslots : u.tree.slots = t.tree.slots := by
      rw [hus, hts, ← regrow_outline_self 0, houtline, regrow_outline_self]
    obtain ⟨⟨slots⟩, root⟩ := t
    obtain ⟨⟨slots'⟩, root'⟩ := u
    obtain rfl : slots' = slots := hslots
    rfl

/-- A rule with a string and a block in it. The string has a newline, and what follows that looks
like the line of a url. -/
theorem listing_determines_tree_string :
    let s : Source := ⟨['"', '\\', '\n', 'U', 'R', 'L', '@', '0', '"', '\x7b'], 0⟩
    ∃ (t : ComponentTree) (d : List Char), t.skips = [4, 3, 1, 1] ∧ t.dump s = .ok d ∧
      (∃ lines : List (List Char), d = lines.flatten ∧ lines.length = 4 ∧
        ∀ l ∈ lines, IsLine l) ∧
      ∀ u : ComponentTree, Built componentCapacity u.tree → u.dump s = .ok d → u = t := by
  intro s
  let tree : Rose Component := .node ⟨.ruleList, 0, 0⟩
    [.node ⟨.qualifiedRule, 0, 2⟩ [.node ⟨.string, 0, 0⟩ [], .node ⟨.curlyBlock, 9, 0⟩ []]]
  let t : ComponentTree := ⟨⟨tree.layout⟩, by decide⟩
  have hfinish : (Builder.after componentCapacity [.start ⟨.ruleList, 0, 0⟩,
      .start ⟨.qualifiedRule, 0, 2⟩, .leaf ⟨.string, 0, 0⟩, .leaf ⟨.curlyBlock, 9, 0⟩, .finish,
      .finish]).finish = .ok t.tree := by decide
  have hwalk : t.preorder 0 = .ok [(0, 0), (1, 1), (2, 2), (3, 2)] :=
    preorder_root (some tree) (by decide)
  obtain ⟨d, hd⟩ : ∃ d, t.dump s = .ok d := by
    rw [dump, hwalk, mapError_ok, ok_bind]
    exact ⟨_, rfl⟩
  obtain ⟨hlines, hunique⟩ := listing_determines_tree (.finish hfinish) hd
  exact ⟨t, d, rfl, hd, hlines, hunique⟩

end ComponentTree

end Stylesheet
