import Stylesheet.Proofs.Cutting

/-!
The end of a text closes what is open as the missing closing characters would. For every frame that
has one, the token of its closing character does to the machine just what the end of the text does;
only the problem is not reported. A text with the closing characters of all open frames behind it
therefore has the same tree, and all its problems but those of the frames they close.
-/

namespace Stylesheet

open Stylesheet.Text

def Bracket.closingChar : Bracket → Char
  | .curly => '\x7d'
  | .square => ']'
  | .round => ')'

/-- The character that closes a frame. Lists of rules have none, and a qualified rule ends only with
its block. -/
def Frame.closingChar? : Frame → Option Char
  | .ruleList _ => none
  | .atRule _ => some ';'
  | .qualifiedRule _ => none
  | .block _ bracket _ => some bracket.closingChar
  | .function _ => some ')'

def closingChars : List Char := [')', ']', '\x7d', ';']

/-- The closing characters of open frames, innermost first. A block that is attached closes the rule
below it. -/
def closers : List Frame → List Char
  | [] => []
  | .block _ bracket true :: _ :: stack => bracket.closingChar :: closers stack
  | frame :: stack => frame.closingChar?.toList ++ closers stack

def Source.openFrames (s : Source) (list : ListKind) : Except TreeError (List Frame) :=
  (Machine.start list s.location >>= fun m => m.run s.material).map Machine.stack

/-- Whether a problem is that something is not closed. -/
def Problem.isUnclosed : Problem → Bool
  | .unclosedBlock _ | .unclosedFunction | .unclosedAtRule => true
  | .lexical _ | .missingBlock => false

/-- Whether a message says that something is not closed. -/
def Diagnostic.isUnclosed (d : Diagnostic) : Bool :=
  "unclosed ".toList.isPrefixOf d.message.toList ||
    "at-rule is not closed ".toList.isPrefixOf d.message.toList

lemma Finding.isUnclosed_diagnostic (f : Finding) :
    f.diagnostic.isUnclosed = f.problem.isUnclosed := by
  unfold diagnostic Diagnostic.isUnclosed Problem.isUnclosed
  rcases f with ⟨error | bracket | _ | _ | _, span⟩
  case lexical => cases error <;> simp [Problem.message, LexErrorKind.message, List.isPrefixOf]
  case unclosedBlock => cases bracket <;> simp [Problem.message, List.isPrefixOf]
  all_goals simp [Problem.message, List.isPrefixOf]

/-! ### Closing a frame by its token -/

namespace Frame

/-- How many frames close together with this one, itself included. -/
def height : Frame → ℕ
  | .block _ _ true => 2
  | _ => 1

lemma height_pos (f : Frame) : 0 < f.height := by
  unfold height
  split <;> decide

variable {f : Frame} {c : Char} {list : ListKind} {below : List Frame}

lemma closers_cons (hc : f.closingChar? = some c) (hon : f.LiesOn list below) :
    closers (f :: below) = c :: closers ((f :: below).drop f.height) := by
  cases f with
  | ruleList | qualifiedRule => cases hc
  | atRule | function =>
    cases hc
    rfl
  | block t bracket attached =>
    cases hc
    cases attached with
    | false => rfl
    | true =>
      obtain ⟨-, rule, -, rfl⟩ := hon
      rfl

/-- A frame without a character lies on nothing that has one. -/
lemma closers_eq_nil (hc : f.closingChar? = none) (hon : f.LiesOn list below) :
    closers (f :: below) = [] := by
  cases f with
  | ruleList =>
    obtain ⟨-, rfl⟩ := hon
    rfl
  | qualifiedRule =>
    obtain rfl : below = _ := hon
    rfl
  | atRule | function | block => cases hc

lemma unclosed_of_closingChar (hc : f.closingChar? = some c) :
    ∀ found ∈ f.unclosed?.toList, found.problem.isUnclosed := by
  cases f with
  | ruleList | qualifiedRule => cases hc
  | atRule | function | block => simp [unclosed?, Problem.isUnclosed]

lemma not_unclosed_of_none (hc : f.closingChar? = none) (hon : f.LiesOn list below) :
    ∀ found ∈ openFindings (f :: below), !found.problem.isUnclosed := by
  cases f with
  | ruleList =>
    obtain ⟨-, rfl⟩ := hon
    simp [openFindings, unclosed?]
  | qualifiedRule =>
    obtain rfl : below = _ := hon
    simp [openFindings, unclosed?, Problem.isUnclosed]
  | atRule | function | block => cases hc

end Frame

namespace Machine

variable {m n : Machine} {f : Frame} {below : List Frame} {list : ListKind}

/-- **A closing token** does what the end of the text does to the innermost frame. -/
lemma feed_closing (hstack : m.stack = f :: below) {c : Char} (hc : f.closingChar? = some c)
    {u : Token} (hu : u.kind = (lex [c]).kind) : m.feed u = m.closeFrame f := by
  rw [feed, hstack]
  cases f with
  | ruleList | qualifiedRule => cases hc
  | atRule | function =>
    cases hc
    exact if_pos hu
  | block t bracket attached =>
    cases hc
    refine if_pos (hu.trans ?_)
    cases bracket <;> rfl

lemma closeFrame_stack (h : m.closeFrame f = .ok n) : n.stack = m.stack.drop f.height := by
  cases f with
  | ruleList | atRule | function | qualifiedRule =>
    obtain ⟨b, -, h⟩ := exists_of_bind_eq_ok h
    cases h
    exact List.drop_one.symm
  | block t bracket attached =>
    obtain ⟨b, -, h⟩ := exists_of_bind_eq_ok h
    cases h
    cases attached <;> rfl

end Machine

def withoutUnclosed {β : Type} (x : Except TreeError (β × List Finding)) :
    Except TreeError (β × List Finding) :=
  x.map fun p => (p.1, p.2.filter fun f => !f.problem.isUnclosed)

lemma withoutUnclosed_report {β : Type} {fs : List Finding} (hfs : ∀ f ∈ fs, f.problem.isUnclosed)
    (x : Except TreeError (β × List Finding)) :
    withoutUnclosed (report fs x) = withoutUnclosed x := by
  have hnone : (fs.filter fun f => !f.problem.isUnclosed) = [] := by
    rw [List.filter_eq_nil_iff]
    intro f hf
    simp [hfs f hf]
  cases x with
  | error e => rfl
  | ok p =>
    change Except.ok (p.1, (fs ++ p.2).filter _) = _
    rw [List.filter_append, hnone]
    rfl

namespace Machine

variable {m : Machine} {list : ListKind}

/-- **Closing tokens** for all open frames do what the end of the text does. -/
theorem complete_closers (hnested : Frame.Nested list m.stack) {us : List Token}
    (hus : us.map Token.kind = (closers m.stack).map fun c => (lex [c]).kind) :
    m.complete us = withoutUnclosed (m.complete []) := by
  -- an attached block takes its rule with it, so the induction is on the height of the stack
  induction hn : m.stack.length using Nat.strongRecOn generalizing m us with
  | ind n ih =>
    rcases hstack : m.stack with _ | ⟨f, below⟩
    · rw [hstack] at hus
      obtain rfl : us = [] := List.map_eq_nil_iff.mp hus
      rw [complete_nil, hstack]
      rfl
    · rw [hstack] at hnested hus hn
      have hon := hnested.1
      rcases hc : f.closingChar? with _ | c
      · rw [Frame.closers_eq_nil hc hon] at hus
        obtain rfl : us = [] := List.map_eq_nil_iff.mp hus
        rcases hend : m.complete [] with e | ⟨b, fs⟩
        · rfl
        · have hfs := unwind_findings hend
          rw [hstack] at hfs
          have hall : (fs.filter fun f => !f.problem.isUnclosed) = fs := by
            rw [List.filter_eq_self, hfs]
            exact Frame.not_unclosed_of_none hc hon
          change _ = Except.ok (b, fs.filter _)
          rw [hall]
      · rw [Frame.closers_cons hc hon] at hus
        obtain ⟨u, us, rfl, hu, hus⟩ := List.map_eq_cons_iff.mp hus
        rw [complete_cons, feed_closing hstack hc hu, complete_closeFrame hstack hon]
        rcases hclose : m.closeFrame f with e | k
        · rfl
        · have hk := closeFrame_stack hclose
          rw [hstack] at hk
          have hlt : k.stack.length < n := by
            have hpos := f.height_pos
            rw [hk, List.length_drop, hn]
            rw [List.length_cons] at hn
            omega
          rw [ok_bind, ok_bind, withoutUnclosed_report (Frame.unclosed_of_closingChar hc)]
          refine ih _ hlt ?_ ?_ rfl
          · rw [hk]
            exact hnested.of_suffix (List.drop_suffix _ _)
          · rw [hk]
            exact hus

/-! ### The frames of a run -/

variable {start : ℕ} {text : List Char}

lemma moves_feed_list {l : Level} (h : Level.Proper list text [l])
    (hframe : l.frame = .ruleList list) {t : Token} (ht : t.IsMaterial)
    (hstands : t.StandsIn text) :
    Moves start list text 3 ((ofLevels start [l]).feed t) := by
  have hframes : [l].map Level.frame = [.ruleList list] := by rw [List.map_singleton, hframe]
  rw [feed, ofLevels_stack, hframes]
  simp only
  split_ifs with hignored hat
  · exact .inr ⟨[l], rfl, h, by simp⟩
  · have hrule : Moves start list text 2 ((ofLevels start [l]).push (.atRule t) .atRule t.start) :=
      moves_push h rfl (by rw [hframes]; rfl) hstands
    exact hrule.mono (by omega)
  · have hrule : Moves start list text 2
        ((ofLevels start [l]).push (.qualifiedRule t) .qualifiedRule t.start) :=
      moves_push h rfl (by rw [hframes]; rfl) hstands
    obtain hfail | ⟨ks, hopened, hks, hheight⟩ := hrule
    · rw [hfail]
      exact .inl rfl
    · have htop := push_stack hopened
      rw [ofLevels_stack] at htop
      obtain ⟨k, ks, rfl, hk, -⟩ := List.map_eq_cons_iff.mp htop
      rw [List.length_cons] at hheight
      rw [hopened, ok_bind]
      exact (moves_prelude hks ⟨t, .inr hk⟩ ht hstands).mono (by omega)

/-- **One token** leaves proper levels. -/
lemma proper_of_feed {ls : List Level} (h : Level.Proper list text ls) {t : Token}
    (ht : t.IsMaterial) (hstands : t.StandsIn text) {m : Machine}
    (hfeed : (ofLevels start ls).feed t = .ok m) :
    ∃ ks, m = ofLevels start ks ∧ Level.Proper list text ks := by
  have hmoves : ∃ height, Moves start list text height ((ofLevels start ls).feed t) := by
    rcases ls with _ | ⟨l, ls⟩
    · exact absurd rfl h.some
    · by_cases hlist : ∃ k, l.frame = .ruleList k
      · obtain ⟨k, hframe⟩ := hlist
        have hon := h.nested.1
        rw [hframe] at hon
        obtain ⟨rfl, hbelow⟩ := hon
        obtain rfl : ls = [] := List.map_eq_nil_iff.mp hbelow
        exact ⟨_, moves_feed_list h hframe ht hstands⟩
      · exact ⟨_, moves_feed h (fun k hk => hlist ⟨k, hk⟩) ht hstands⟩
  obtain ⟨height, hfail | ⟨ks, hks, hproper, -⟩⟩ := hmoves
  · rw [hfail] at hfeed
    cases hfeed
  · rw [hks] at hfeed
    cases hfeed
    exact ⟨ks, rfl, hproper⟩

/-- **A run** does. -/
lemma proper_of_run {ls : List Level} (h : Level.Proper list text ls) {ts : List Token}
    (hts : ∀ t ∈ ts, t.IsMaterial ∧ t.StandsIn text) {m : Machine}
    (hrun : (ofLevels start ls).run ts = .ok m) :
    ∃ ks, m = ofLevels start ks ∧ Level.Proper list text ks := by
  induction ts generalizing ls with
  | nil =>
    cases hrun
    exact ⟨ls, rfl, h⟩
  | cons t ts ih =>
    obtain ⟨n, hfeed, hrun⟩ := exists_of_bind_eq_ok hrun
    obtain ⟨ht, hstands⟩ := hts t List.mem_cons_self
    obtain ⟨ks, rfl, hks⟩ := proper_of_feed h ht hstands hfeed
    exact ih hks (fun u hu => hts u (List.mem_cons_of_mem t hu)) hrun

lemma complete_append (m : Machine) (ts us : List Token) :
    m.complete (ts ++ us) = m.run ts >>= fun m => m.complete us := by
  induction ts generalizing m with
  | nil => rfl
  | cons t ts ih =>
    rw [List.cons_append, complete_cons, run_cons, bind_assoc]
    exact bind_congr fun n => ih n

end Machine

/-! ### The closing characters as tokens -/

lemma cases_of_mem_closingChars {c : Char} (h : c ∈ closingChars) :
    c = ')' ∨ c = ']' ∨ c = '\x7d' ∨ c = ';' := by
  simpa [closingChars] using h

lemma lex_closing {c : Char} (h : c ∈ closingChars) (r : List Char) :
    lex (c :: r) = ⟨(lex [c]).kind, 1, none⟩ := by
  obtain rfl | rfl | rfl | rfl := cases_of_mem_closingChars h <;> rfl

lemma plain_of_mem_closingChars {c : Char} (h : c ∈ closingChars) :
    c.toNat < 128 ∧ c ≠ '\r' ∧ normalize c = c ∧ (lex [c]).kind ≠ .comments := by
  obtain rfl | rfl | rfl | rfl := cases_of_mem_closingChars h <;> decide

lemma mem_of_mem_closers {c : Char} {stack : List Frame} (h : c ∈ closers stack) :
    c ∈ closingChars := by
  have hbracket : ∀ bracket : Bracket, bracket.closingChar ∈ closingChars := by
    rintro (_ | _ | _) <;> decide
  fun_induction closers stack with
  | case1 => cases h
  | case2 t bracket rule stack ih =>
    rcases List.mem_cons.mp h with rfl | h
    · exact hbracket bracket
    · exact ih h
  | case3 frame stack hother ih =>
    rcases List.mem_append.mp h with h | h
    · cases frame with
      | ruleList | qualifiedRule => cases h
      | atRule | function =>
        rw [List.mem_singleton.mp h]
        decide
      | block t bracket attached =>
        rw [List.mem_singleton.mp h]
        exact hbracket bracket
    · exact ih h

namespace Source

variable {s : Source}

lemma token_closing {c : Char} {r : List Char} (h : c ∈ closingChars)
    (hrest : s.text.drop s.location = c :: r) :
    s.token = ⟨(lex [c]).kind, ⟨s.location, 1⟩, none⟩ ∧ s.next.text.drop s.next.location = r := by
  obtain ⟨-, hreturn, hsame, -⟩ := plain_of_mem_closingChars h
  have hahead : s.ahead = ⟨c, 1⟩ :: decode r := by
    rw [ahead, hrest, decode_cons fun hc => absurd hc hreturn, hsame]
  have htoken : s.token = ⟨(lex [c]).kind, ⟨s.location, 1⟩, none⟩ := by
    rw [token, rest, hahead, chars_cons, lex_closing h]
    rfl
  refine ⟨htoken, ?_⟩
  rw [next_text, next_location, htoken]
  change s.text.drop (s.location + 1) = r
  rw [← List.drop_drop, hrest]
  rfl

lemma tokens_closing (h : ∀ c ∈ s.text.drop s.location, c ∈ closingChars) :
    s.tokens.map Token.kind = (s.text.drop s.location).map (fun c => (lex [c]).kind) ∧
      ∀ t ∈ s.tokens, t.error = none ∧ t.kind ≠ .comments := by
  induction s using next_induction with
  | atEnd s hend =>
    rw [tokens_of_end hend, List.drop_eq_nil_of_le hend]
    exact ⟨rfl, fun t ht => by cases ht⟩
  | step s hlt ih =>
    obtain ⟨c, r, hrest⟩ := List.exists_cons_of_ne_nil (l := s.text.drop s.location)
      (by rw [Ne, List.drop_eq_nil_iff]; omega)
    rw [hrest] at h
    obtain ⟨htoken, hnext⟩ := token_closing (h c List.mem_cons_self) hrest
    rw [hnext] at ih
    obtain ⟨hkinds, hclean⟩ := ih fun d hd => h d (List.mem_cons_of_mem c hd)
    rw [tokens_cons hlt, hrest, List.map_cons, List.map_cons, hkinds, htoken]
    refine ⟨rfl, fun t ht => ?_⟩
    rcases List.mem_cons.mp ht with rfl | ht
    · exact ⟨rfl, (plain_of_mem_closingChars (h c List.mem_cons_self)).2.2.2⟩
    · exact hclean t ht

lemma tokens_of_isPrefix {more : List Char} (h : s.location ≤ s.text.length)
    (hfirst : s.tokens <+: (⟨s.text ++ more, s.location⟩ : Source).tokens) :
    (⟨s.text ++ more, s.location⟩ : Source).tokens =
      s.tokens ++ (⟨s.text ++ more, s.text.length⟩ : Source).tokens := by
  induction s using next_induction with
  | atEnd s hend => rw [tokens_of_end hend, Nat.le_antisymm h hend, List.nil_append]
  | step s hlt ih =>
    have hlonger : s.location < (s.text ++ more).length := by
      rw [List.length_append]
      omega
    have hcons := tokens_cons (s := ⟨s.text ++ more, s.location⟩) hlonger
    rw [tokens_cons hlt, hcons, List.cons_prefix_cons] at hfirst
    obtain ⟨htoken, hfirst⟩ := hfirst
    have hnext : (⟨s.text ++ more, s.location⟩ : Source).next =
        ⟨s.next.text ++ more, s.next.location⟩ := by
      rw [next, ← htoken]
      rfl
    rw [hnext] at hfirst
    rw [hcons, ← htoken, hnext, ih (token_stop_le h) hfirst, tokens_cons hlt]
    rfl

/-! ### The text with its closing characters -/

variable {list : ListKind} {stack : List Frame} {p : Parse}

def extend (s : Source) (more : List Char) : Source := ⟨s.text ++ more, s.location⟩

/-- If the tokens stay as they are, a closing token follows for each of the open frames. -/
lemma exists_closing_tokens (h : s.location ≤ s.text.length)
    (hfirst : s.tokens <+: (s.extend (closers stack)).tokens) :
    ∃ us, (s.extend (closers stack)).tokens = s.tokens ++ us ∧
      us.map Token.kind = (closers stack).map (fun c => (lex [c]).kind) ∧
      ∀ t ∈ us, t.error = none ∧ t.kind ≠ .comments := by
  have hbehind : (s.text ++ closers stack).drop s.text.length = closers stack := List.drop_left
  have hclosing := tokens_closing (s := ⟨s.text ++ closers stack, s.text.length⟩) (by
    rw [hbehind]
    exact fun c hc => mem_of_mem_closers hc)
  rw [hbehind] at hclosing
  exact ⟨_, tokens_of_isPrefix h hfirst, hclosing⟩

/-- Feeding the closing tokens comes to what the end of the text comes to. -/
lemma completed_closers (hopened : s.openFrames list = .ok stack) {us : List Token}
    (hus : us.map Token.kind = (closers stack).map fun c => (lex [c]).kind) {s' : Source}
    (hlocation : s'.location = s.location) (hmaterial : s'.material = s.material ++ us) :
    s'.completed list = withoutUnclosed (s.completed list) := by
  rw [openFrames, Machine.start_eq_ofLevels, ok_bind] at hopened
  rcases hrun : (Machine.ofLevels s.location [⟨.ruleList list, []⟩]).run s.material with e | m
  · rw [hrun] at hopened
    cases hopened
  · rw [hrun] at hopened
    obtain rfl : m.stack = stack := Except.ok.inj hopened
    obtain ⟨ks, rfl, hproper⟩ := Machine.proper_of_run (Machine.proper_start list s.text)
      (fun t ht => ⟨isMaterial_of_mem ht, standsIn_of_mem_tokens (List.mem_filter.mp ht).1⟩) hrun
    have hend : s.completed list = (Machine.ofLevels s.location ks).complete [] := by
      rw [completed, Machine.complete, hrun]
      rfl
    rw [hend, completed, hlocation, hmaterial, Machine.complete_append, hrun, ok_bind,
      Machine.complete_closers hproper.nested hus]

lemma sheet_of_completed {b : ComponentBuilder} {fs : List Finding}
    (h : s.completed list = .ok (b, fs)) :
    1 + (s.sheet list).written ≤ componentCapacity ∧
      b = .ofTree componentCapacity ((s.sheet list).tree s.location) ∧
      fs = (s.sheet list).findings := by
  rw [completed_eq, reserve] at h
  split_ifs at h with hroom
  cases h
  exact ⟨hroom, rfl, rfl⟩

lemma filter_lexical_unclosed (ts : List Token) :
    (ts.filterMap Token.finding?).filter (fun f => !f.problem.isUnclosed) =
      ts.filterMap Token.finding? := by
  rw [List.filter_eq_self]
  intro found h
  obtain ⟨t, -, ht⟩ := List.mem_filterMap.mp h
  obtain ⟨k, -, rfl⟩ := Option.map_eq_some_iff.mp ht
  rfl

/-- **The text with closing characters** has the same tree and the other problems, if its tokens are
those of the text and what closes the frames. -/
lemma parse_closers (h : s.location ≤ s.text.length) (hp : s.parse list = .ok p)
    (hopened : s.openFrames list = .ok stack)
    (hfirst : s.tokens <+: (s.extend (closers stack)).tokens) :
    ∃ q, (s.extend (closers stack)).parse list = .ok q ∧ q.tree = p.tree ∧
      q.diagnostics = p.diagnostics.filter fun d => !d.isUnclosed := by
  obtain ⟨us, htokens, hus, hclean⟩ := exists_closing_tokens h hfirst
  have hmaterial : (s.extend (closers stack)).material = s.material ++ us := by
    have hall : us.filter (fun t => t.kind ≠ .comments) = us :=
      List.filter_eq_self.mpr fun t ht => decide_eq_true (hclean t ht).2
    rw [material, htokens, List.filter_append, hall]
    rfl
  have hlexical : (s.extend (closers stack)).tokens.filterMap Token.finding? =
      s.tokens.filterMap Token.finding? := by
    have hnone : us.filterMap Token.finding? = [] :=
      List.filterMap_eq_nil_iff.mpr fun t ht => by rw [Token.finding?, (hclean t ht).1]; rfl
    rw [htokens, List.filterMap_append, hnone, List.append_nil]
  obtain ⟨hroom, rfl⟩ := parse_eq_ok_iff.mp hp
  have hcompleted : (s.extend (closers stack)).completed list =
      withoutUnclosed (s.completed list) := completed_closers hopened hus rfl hmaterial
  rw [s.completed_eq, reserve_of_le hroom] at hcompleted
  obtain ⟨hroom', hbuilder, hfindings⟩ := sheet_of_completed hcompleted
  have hlayout := congrArg Builder.slots hbuilder
  refine ⟨_, parse_eq_ok_iff.mpr ⟨hroom', rfl⟩, ?_, ?_⟩
  · simp only [Sheet.componentTree]
    congr 2
    exact hlayout.symm
  · have hproblems : (s.extend (closers stack)).problems list =
        (s.problems list).filter fun f => !f.problem.isUnclosed := by
      rw [problems, problems, ← hfindings, hlexical, ← sortFindings_filter, List.filter_append,
        filter_lexical_unclosed]
    rw [Parse.diagnostics, Parse.diagnostics, hproblems, List.filter_map]
    refine congrArg (List.map Finding.diagnostic) (List.filter_congr fun f _ => ?_)
    rw [Function.comp_apply, f.isUnclosed_diagnostic]

/-- **The end of a text closes what is open** as the missing closing characters would, whatever the
kind of list. If the tokens of the text stay the same before these characters, the longer text has
the same tree, and its diagnostics are the others. Only a text too long for its tree to be counted
in a word has no tree. -/
theorem end_closes_like_closers {text : List Char} {s : Source} (h : ofChars text = .ok s)
    (list : ListKind) :
    match s.parse list with
    | .ok p => ∃ stack s', s.openFrames list = .ok stack ∧
        ofChars (text ++ closers stack) = .ok s' ∧
        (s.tokens <+: s'.tokens → ∃ q, s'.parse list = .ok q ∧ q.tree = p.tree ∧
          q.diagnostics = p.diagnostics.filter fun d => !d.isUnclosed)
    | .error e => e = .overflow componentCapacity ∧ componentCapacity < text.length + 2 := by
  obtain ⟨rfl, hascii⟩ := ofChars_eq_ok_iff.mp h
  rcases hp : (⟨text, 0⟩ : Source).parse list with e | p
  · exact overflow_of_parse hp
  · obtain ⟨stack, hopened, -, -, -⟩ := exists_stack_of_parse hp
    refine ⟨stack, (⟨text, 0⟩ : Source).extend (closers stack), hopened, ?_, ?_⟩
    · refine ofChars_eq_ok_iff.mpr ⟨rfl, fun c hc => ?_⟩
      rcases List.mem_append.mp hc with hc | hc
      · exact hascii c hc
      · exact (plain_of_mem_closingChars (mem_of_mem_closers hc)).1
    · exact fun hfirst => parse_closers (Nat.zero_le _) hp hopened hfirst

/-- Brackets in brackets in the prelude of an at-rule. -/
theorem end_closes_like_closers_prelude :
    ∃ p q, (⟨['@', 'a', '(', '['], 0⟩ : Source).parse .topLevel = .ok p ∧
      (⟨['@', 'a', '(', '[', ']', ')', ';'], 0⟩ : Source).parse .topLevel = .ok q ∧
      q.tree = p.tree ∧ q.diagnostics = p.diagnostics.filter fun d => !d.isUnclosed := by
  have hopened : (⟨['@', 'a', '(', '['], 0⟩ : Source).openFrames .topLevel =
      .ok [.block ⟨.leftBracket, ⟨3, 1⟩, none⟩ .square false,
        .block ⟨.leftParen, ⟨2, 1⟩, none⟩ .round false,
        .atRule ⟨.atKeyword, ⟨0, 2⟩, none⟩, .ruleList .topLevel] := by
    decide
  have hclosed := end_closes_like_closers (rfl : ofChars ['@', 'a', '(', '['] = .ok _) .topLevel
  rcases hp : (⟨['@', 'a', '(', '['], 0⟩ : Source).parse .topLevel with e | p
  · rw [hp] at hclosed
    exact absurd hclosed.2 (by decide)
  · rw [hp] at hclosed
    obtain ⟨stack, s', hstack, hs', hparse⟩ := hclosed
    rw [hopened] at hstack
    cases hstack
    cases hs'
    obtain ⟨q, hq⟩ := hparse (by decide)
    exact ⟨p, q, rfl, hq⟩

end Source

end Stylesheet
