import Mathlib.Computability.Language
import Stylesheet.Command
import Stylesheet.Proofs.Refinement

/-!
The grammar of style sheets over the kinds of their tokens. A block or a function is closed by its
own closing token, and any other closing token in it is a value like the rest; so what is left open
takes in all that follows, and then there is no derivation. A text has no problems exactly if none
of its tokens is malformed and they are derived from the grammar.
-/

namespace Stylesheet

open Computability

namespace Grammar

/-- The token that closes what a token opens. -/
def closer? : TokenKind → Option TokenKind
  | .leftBrace => some .rightBrace
  | .leftBracket => some .rightBracket
  | .leftParen | .function => some .rightParen
  | _ => none

/-- A component value: a token that opens nothing, or values between an opening token and the one
that closes it. Of these values none is that closing token by itself. -/
inductive Value : List TokenKind → Prop
  | single {k : TokenKind} (h : closer? k = none) : Value [k]
  | enclosed {k c : TokenKind} (h : closer? k = some c) {vs : List (List TokenKind)}
      (hvs : ∀ v ∈ vs, Value v) (hown : [c] ∉ vs) : Value (k :: (vs.flatten ++ [c]))

def token (k : TokenKind) : Language TokenKind := {[k]}

/-- The values that can stand before the closing token `c`. -/
def inside (c : TokenKind) : Language TokenKind := {v | Value v ∧ v ≠ [c]}

/-- The values in front of the block of a rule, where no block in braces is one of them, nor is a
semicolon if it ends the rule. -/
def ahead (semicolonEnds : Bool) : Language TokenKind :=
  {v | Value v ∧ v.head? ≠ some .leftBrace ∧ (semicolonEnds → v ≠ [.semicolon])}

def block : Language TokenKind := token .leftBrace * (inside .rightBrace)∗ * token .rightBrace

def atRule : Language TokenKind :=
  token .atKeyword * (ahead true)∗ * (token .semicolon + block)

def gap : ListKind → Language TokenKind
  | .topLevel => token .whitespace + token .cdo + token .cdc
  | .nested => token .whitespace

/-- A qualified rule starts with none of the tokens that a list takes for something else. -/
def qualifiedRule (list : ListKind) : Language TokenKind :=
  {ks | ks ∈ (ahead false)∗ * block ∧ ∀ k ∈ ks.head?, [k] ∉ gap list ∧ k ≠ .atKeyword}

def rules (list : ListKind) : Language TokenKind := (gap list + atRule + qualifiedRule list)∗

@[simp] lemma mem_token {k : TokenKind} {ks : List TokenKind} : ks ∈ token k ↔ ks = [k] := Iff.rfl

lemma mem_gap {list : ListKind} {k : TokenKind} : [k] ∈ gap list ↔ list.ignores k := by
  cases list with
  | topLevel =>
    simp only [gap, Language.mem_add, mem_token]
    cases k <;> simp [ListKind.ignores]
  | nested =>
    simp only [gap, mem_token]
    cases k <;> simp [ListKind.ignores]

lemma cons_mem_kstar {l : Language TokenKind} {x y : List TokenKind} (hx : x ∈ l) (hy : y ∈ l∗) :
    x ++ y ∈ l∗ := by
  obtain ⟨ys, rfl, hys⟩ := Language.mem_kstar.mp hy
  rw [← List.flatten_cons]
  exact Language.join_mem_kstar (by simpa [hx] using hys)

lemma closer?_of_opener {k : TokenKind} {bracket : Bracket}
    (h : Bracket.ofOpener? k = some bracket) : closer? k = some bracket.closer := by
  cases k <;> simp [Bracket.ofOpener?] at h <;> subst h <;> rfl

lemma closer?_of_leaf {k : TokenKind} (ho : Bracket.ofOpener? k = none) (hf : k ≠ .function) :
    closer? k = none := by
  cases k <;> simp_all [Bracket.ofOpener?, closer?]

lemma closer?_of_closer {k c : TokenKind} (h : closer? k = some c) : closer? c = none := by
  cases k <;> simp [closer?] at h <;> subst h <;> rfl

lemma Value.ne_nil {v : List TokenKind} (h : Value v) : v ≠ [] := by
  cases h <;> simp

lemma Value.eq_single {k : TokenKind} {v : List TokenKind} (h : Value (k :: v))
    (hk : closer? k = none) : v = [] := by
  cases h with
  | single => rfl
  | enclosed hopen => simp [hk] at hopen

/-! ### What is consumed is derived -/

abbrev kinds (ts : List Token) : List TokenKind := ts.map Token.kind

/-- Values between an opening token and the one that closes it. -/
lemma value_enclosed {t c : Token} {run : List Token} {closer : TokenKind}
    (hopen : closer? t.kind = some closer) (hc : c.kind = closer)
    (hrun : kinds run ∈ (inside closer)∗) : Value (kinds (t :: (run ++ [c]))) := by
  obtain ⟨vs, hflat, hvs⟩ := Language.mem_kstar.mp hrun
  have hkinds : kinds (t :: (run ++ [c])) = t.kind :: (vs.flatten ++ [closer]) := by
    simp [← hflat, hc]
  rw [hkinds]
  exact .enclosed hopen (fun v hv => (hvs v hv).1) fun h => (hvs _ h).2 rfl

lemma derived_consume :
    (∀ t ts, (consumeValue t ts).findings = [] →
      ∃ run, ts = run ++ (consumeValue t ts).rest ∧ Value (kinds (t :: run))) ∧
      ∀ closer unclosed ts, (consumeValues closer unclosed ts).findings = [] →
        ∃ run c, ts = run ++ c :: (consumeValues closer unclosed ts).rest ∧ c.kind = closer ∧
          kinds run ∈ (inside closer)∗ := by
  refine consume_induction ?_ ?_ ?_ ?_ ?_ ?_
  · intro t ts ho hf hnone
    rw [consumeValue_leaf ho hf]
    exact ⟨[], rfl, .single (closer?_of_leaf ho hf)⟩
  · intro t ts bracket ho ih hnone
    rw [consumeValue_opener ho, consumeBlock] at hnone ⊢
    obtain ⟨run, c, hsplit, hc, hrun⟩ := ih hnone
    exact ⟨run ++ [c], by simpa using hsplit, value_enclosed (closer?_of_opener ho) hc hrun⟩
  · intro t ts hf ih hnone
    rw [consumeValue_function hf, consumeFunction] at hnone ⊢
    obtain ⟨run, c, hsplit, hc, hrun⟩ := ih hnone
    exact ⟨run ++ [c], by simpa using hsplit, value_enclosed (by rw [hf]; rfl) hc hrun⟩
  · intro closer unclosed hnone
    simp [consumeValues_nil] at hnone
  · intro closer unclosed t ts hc hnone
    rw [consumeValues_close hc]
    exact ⟨[], t, rfl, hc, Language.nil_mem_kstar _⟩
  · intro closer unclosed t ts hc ihv ihw hnone
    rw [consumeValues_cons hc] at hnone ⊢
    obtain ⟨hvalue, hvalues⟩ := List.append_eq_nil_iff.mp hnone
    obtain ⟨run, hsplit, hrun⟩ := ihv hvalue
    obtain ⟨more, c, hmore, hc', hkinds⟩ := ihw hvalues
    have hne : kinds (t :: run) ≠ [closer] := fun h => hc (List.cons.inj h).1
    refine ⟨t :: run ++ more, c, ?_, hc', ?_⟩
    · rw [List.append_assoc, ← hmore, List.cons_append, ← hsplit]
    · rw [kinds, List.map_append]
      exact cons_mem_kstar ⟨hrun, hne⟩ hkinds

def ending : Bool → Language TokenKind
  | true => token .semicolon + block
  | false => block

lemma derived_prelude {semicolonEnds : Bool} {ts : List Token}
    (hnone : (consumePrelude semicolonEnds ts).findings = [])
    (hend : (consumePrelude semicolonEnds ts).made.ending ≠ .endOfText) :
    ∃ run c, ts = run ++ c :: (consumePrelude semicolonEnds ts).rest ∧
      kinds run ∈ (ahead semicolonEnds)∗ ∧
      ((consumePrelude semicolonEnds ts).made.ending = .semicolon ∧ semicolonEnds = true ∧
          c.kind = .semicolon ∨
        (consumePrelude semicolonEnds ts).made.ending = .brace c ∧ c.kind = .leftBrace) := by
  fun_induction consumePrelude semicolonEnds ts with
  | case1 => exact absurd rfl hend
  | case2 t ts hs => exact ⟨[], t, rfl, Language.nil_mem_kstar _, .inl ⟨rfl, hs⟩⟩
  | case3 t ts hs hb => exact ⟨[], t, rfl, Language.nil_mem_kstar _, .inr ⟨rfl, hb⟩⟩
  | case4 t ts hs hb value more ih =>
    obtain ⟨hvalue, hmore⟩ := List.append_eq_nil_iff.mp hnone
    obtain ⟨run, hsplit, hrun⟩ := derived_consume.1 t ts hvalue
    obtain ⟨body, c, hbody, hkinds, hlast⟩ := ih hmore hend
    have hahead : kinds (t :: run) ∈ ahead semicolonEnds := by
      refine ⟨hrun, fun h => hb (Option.some.inj h), fun hends h => hs ⟨hends, ?_⟩⟩
      exact (List.cons.inj h).1
    refine ⟨t :: run ++ body, c, ?_, ?_, hlast⟩
    · have hvalue : value.rest = body ++ c :: more.rest := hbody
      rw [List.append_assoc, ← hvalue, List.cons_append, ← hsplit]
    · rw [kinds, List.map_append]
      exact cons_mem_kstar hahead hkinds

lemma derived_block {t : Token} {ts : List Token} (ht : t.kind = .leftBrace)
    (hnone : (consumeBlock t .curly ts).findings = []) :
    ∃ run, ts = run ++ (consumeBlock t .curly ts).rest ∧ kinds (t :: run) ∈ block := by
  rw [consumeBlock] at hnone ⊢
  obtain ⟨run, c, hsplit, hc, hrun⟩ := derived_consume.2 _ _ ts hnone
  refine ⟨run ++ [c], by simpa using hsplit, ?_⟩
  have hkinds : kinds (t :: (run ++ [c])) = [.leftBrace] ++ kinds run ++ [.rightBrace] := by
    simp [ht, hc, Bracket.closer]
  rw [hkinds]
  exact Language.append_mem_mul (Language.append_mem_mul rfl hrun) rfl

lemma derived_parts (semicolonEnds : Bool) {unfinished : Finding} {ts : List Token}
    (hnone : (consumeParts semicolonEnds unfinished ts).findings = []) :
    ∃ run, ts = run ++ (consumeParts semicolonEnds unfinished ts).rest ∧
      kinds run ∈ (ahead semicolonEnds)∗ * ending semicolonEnds := by
  have hprelude := @derived_prelude semicolonEnds ts
  rw [consumeParts] at hnone ⊢
  rcases hend : (consumePrelude semicolonEnds ts).made.ending with _ | opening | _
  all_goals simp only [hend] at hnone hprelude ⊢
  · obtain ⟨run, c, hsplit, hrun, ⟨-, rfl, hc⟩ | ⟨hbrace, -⟩⟩ := hprelude hnone (by simp)
    · refine ⟨run ++ [c], by simpa using hsplit, ?_⟩
      rw [kinds, List.map_append]
      exact Language.append_mem_mul hrun (.inl (mem_token.mpr (by simp [hc])))
    · cases hbrace
  · obtain ⟨hvalues, hblock⟩ := List.append_eq_nil_iff.mp hnone
    obtain ⟨run, c, hsplit, hrun, ⟨hsemicolon, -, -⟩ | ⟨hbrace, hc⟩⟩ := hprelude hvalues (by simp)
    · cases hsemicolon
    · cases hbrace
      obtain ⟨inner, hinner, hkinds⟩ := derived_block hc hblock
      refine ⟨run ++ opening :: inner, ?_, ?_⟩
      · rw [List.append_assoc, List.cons_append, ← hinner]
        exact hsplit
      · rw [kinds, List.map_append]
        refine Language.append_mem_mul hrun ?_
        cases semicolonEnds with
        | true => exact .inr hkinds
        | false => exact hkinds
  · simp at hnone

/-- **Soundness**: rules in which nothing is left open are derived. -/
theorem derived_rules {list : ListKind} {ts : List Token}
    (hnone : (consumeRules list ts).findings = []) : kinds ts ∈ rules list := by
  fun_induction consumeRules list ts with
  | case1 => exact Language.nil_mem_kstar _
  | case2 t ts hi ih =>
    exact cons_mem_kstar (x := [t.kind]) (.inl (.inl (mem_gap.mpr hi))) (ih hnone)
  | case3 t ts hi ha rule more ih =>
    obtain ⟨hrule, hmore⟩ := List.append_eq_nil_iff.mp hnone
    obtain ⟨run, hsplit, hrun⟩ := derived_parts true hrule
    have hsplit : ts = run ++ rule.rest := hsplit
    have hat : kinds (t :: run) ∈ atRule := by
      rw [atRule, mul_assoc]
      exact Language.append_mem_mul (a := [t.kind]) (by simp [ha]) hrun
    have hkinds : kinds (t :: ts) = kinds (t :: run) ++ kinds rule.rest := by
      refine (congrArg (fun us => kinds (t :: us)) hsplit).trans ?_
      simp
    rw [hkinds]
    exact cons_mem_kstar (.inl (.inr hat)) (ih hmore)
  | case4 t ts hi ha rule more tree hb ih | case5 t ts hi ha rule more tree hb ih =>
    obtain ⟨hrule, hmore⟩ := List.append_eq_nil_iff.mp hnone
    obtain ⟨run, hsplit, hrun⟩ := derived_parts false hrule
    have hsplit : t :: ts = run ++ rule.rest := hsplit
    have hfirst : ∀ k ∈ (kinds run).head?, [k] ∉ gap list ∧ k ≠ .atKeyword := by
      rcases run with _ | ⟨u, run⟩
      · simp
      · obtain ⟨rfl, -⟩ := List.cons.inj hsplit
        rintro _ ⟨⟩
        exact ⟨fun h => hi (mem_gap.mp h), ha⟩
    rw [hsplit, kinds, List.map_append]
    exact cons_mem_kstar (.inr ⟨hrun, hfirst⟩) (ih hmore)

/-! ### What is derived is consumed -/

/-- Nothing is left open, and the tokens `more` are left over. -/
def Finished {α : Type} {ts : List Token} (x : Consumed α ts) (more : List Token) : Prop :=
  x.findings = [] ∧ x.rest = more

/-- Tokens of these kinds are consumed as one value, whatever follows them. -/
def Consumes (v : List TokenKind) : Prop :=
  ∀ t run more, kinds (t :: run) = v → Finished (consumeValue t (run ++ more)) more

lemma exists_first {v : List TokenKind} {vs : List (List TokenKind)} {run : List Token}
    (hv : Value v) (hrun : kinds run = (v :: vs).flatten) :
    ∃ t first rest, run = t :: first ++ rest ∧ kinds (t :: first) = v ∧
      kinds rest = vs.flatten := by
  obtain ⟨first, rest, rfl, hfirst, hrest⟩ := List.map_eq_append_iff.mp hrun
  rcases first with _ | ⟨t, first⟩
  · exact absurd hfirst.symm hv.ne_nil
  · exact ⟨t, first, rest, rfl, hfirst, hrest⟩

lemma finished_values {closer : TokenKind} (hcloser : closer? closer = none) (unclosed : Finding)
    {vs : List (List TokenKind)} (hvs : ∀ v ∈ vs, Value v ∧ Consumes v) (hown : [closer] ∉ vs)
    {run : List Token} (hrun : kinds run = vs.flatten) {c : Token} (hc : c.kind = closer)
    (more : List Token) : Finished (consumeValues closer unclosed (run ++ c :: more)) more := by
  induction vs generalizing run with
  | nil =>
    obtain rfl : run = [] := List.map_eq_nil_iff.mp hrun
    rw [List.nil_append, consumeValues_close hc]
    exact ⟨rfl, rfl⟩
  | cons v vs ih =>
    obtain ⟨hv, hconsumes⟩ := hvs v List.mem_cons_self
    obtain ⟨t, first, rest, rfl, rfl, hrest⟩ := exists_first hv hrun
    have ht : t.kind ≠ closer := by
      rintro rfl
      have hsingle : kinds first = [] := hv.eq_single hcloser
      exact hown (by simp [hsingle])
    obtain ⟨hnone, hleft⟩ := hconsumes t first (rest ++ c :: more) rfl
    have hmore := ih (fun u hu => hvs u (List.mem_cons_of_mem _ hu))
      (fun h => hown (List.mem_cons_of_mem _ h)) hrest
    rw [List.append_assoc, List.cons_append, consumeValues_cons ht]
    simp only [Finished, hnone, List.nil_append]
    rw [hleft]
    exact hmore

lemma Value.consumes {v : List TokenKind} (h : Value v) : Consumes v := by
  induction h with
  | @single k hk =>
    intro t run more hkinds
    obtain ⟨rfl, hrun⟩ := List.cons.inj hkinds
    obtain rfl : run = [] := List.map_eq_nil_iff.mp hrun
    have hopen : Bracket.ofOpener? t.kind = none := by
      rcases ho : Bracket.ofOpener? t.kind with _ | bracket
      · rfl
      · simp [closer?_of_opener ho] at hk
    have hfunction : t.kind ≠ .function := fun hf => by simp [hf, closer?] at hk
    rw [List.nil_append, consumeValue_leaf hopen hfunction]
    exact ⟨rfl, rfl⟩
  | @enclosed k c hk vs hvs hown ih =>
    intro t run more hkinds
    obtain ⟨rfl, hrun⟩ := List.cons.inj hkinds
    obtain ⟨body, last, rfl, hbody, hlast⟩ := List.map_eq_append_iff.mp hrun
    obtain ⟨d, rfl, hd⟩ := List.map_eq_singleton_iff.mp hlast
    have hinner : ∀ unclosed, Finished (consumeValues c unclosed (body ++ d :: more)) more :=
      fun unclosed => finished_values (closer?_of_closer hk) unclosed
        (fun v hv => ⟨hvs v hv, ih v hv⟩) hown hbody hd more
    rw [List.append_assoc, List.singleton_append]
    rcases ho : Bracket.ofOpener? t.kind with _ | bracket
    · have hf : t.kind = .function := by
        by_contra hf
        simp [closer?_of_leaf ho hf] at hk
      obtain rfl : .rightParen = c := by simpa [hf, closer?] using hk
      rw [consumeValue_function hf, consumeFunction]
      exact hinner _
    · obtain rfl : bracket.closer = c := by simpa [closer?_of_opener ho] using hk
      rw [consumeValue_opener ho, consumeBlock]
      exact hinner _

lemma finished_prelude {semicolonEnds : Bool} {vs : List (List TokenKind)}
    (hvs : ∀ v ∈ vs, v ∈ ahead semicolonEnds) {run : List Token} (hrun : kinds run = vs.flatten)
    {c : Token} {last : PreludeEnd}
    (hc : semicolonEnds = true ∧ c.kind = .semicolon ∧ last = .semicolon ∨
      c.kind = .leftBrace ∧ last = .brace c) (more : List Token) :
    (consumePrelude semicolonEnds (run ++ c :: more)).made.ending = last ∧
      Finished (consumePrelude semicolonEnds (run ++ c :: more)) more := by
  induction vs generalizing run with
  | nil =>
    obtain rfl : run = [] := List.map_eq_nil_iff.mp hrun
    rw [List.nil_append, consumePrelude]
    rcases hc with ⟨hs, hc, rfl⟩ | ⟨hc, rfl⟩
    · rw [if_pos ⟨hs, hc⟩]
      exact ⟨rfl, rfl, rfl⟩
    · rw [if_neg (by simp [hc]), if_pos hc]
      exact ⟨rfl, rfl, rfl⟩
  | cons v vs ih =>
    obtain ⟨hv, hbrace, hsemicolon⟩ := hvs v List.mem_cons_self
    obtain ⟨t, first, rest, rfl, rfl, hrest⟩ := exists_first hv hrun
    have hs : ¬ (semicolonEnds = true ∧ t.kind = .semicolon) := by
      rintro ⟨hends, ht⟩
      have hsingle : kinds first = [] := hv.eq_single (by rw [ht]; rfl)
      exact hsemicolon hends (by simp [hsingle, ht])
    have hb : t.kind ≠ .leftBrace := fun ht => hbrace (by simp [ht])
    obtain ⟨hnone, hleft⟩ := hv.consumes t first (rest ++ c :: more) rfl
    obtain ⟨hend, hmore⟩ := ih (fun u hu => hvs u (List.mem_cons_of_mem _ hu)) hrest
    rw [List.append_assoc, List.cons_append, consumePrelude, if_neg hs, if_neg hb]
    simp only [Finished, hnone, List.nil_append]
    rw [hleft]
    exact ⟨hend, hmore⟩

lemma finished_block {run : List Token} (hrun : kinds run ∈ block) :
    ∃ t body, run = t :: body ∧ t.kind = .leftBrace ∧
      ∀ more, Finished (consumeBlock t .curly (body ++ more)) more := by
  obtain ⟨opened, hopened, last, rfl, hkinds⟩ := Language.mem_mul.mp hrun
  obtain ⟨first, rfl, inner, hinner, rfl⟩ := Language.mem_mul.mp hopened
  obtain ⟨vs, rfl, hvs⟩ := Language.mem_kstar.mp hinner
  obtain ⟨front, last, rfl, hfront, hlast⟩ := List.map_eq_append_iff.mp hkinds.symm
  obtain ⟨c, rfl, hc⟩ := List.map_eq_singleton_iff.mp hlast
  obtain ⟨t, body, rfl, ht, hbody⟩ := List.map_eq_cons_iff.mp hfront
  refine ⟨t, body ++ [c], rfl, ht, fun more => ?_⟩
  rw [List.append_assoc, List.singleton_append, consumeBlock]
  exact finished_values rfl _ (fun v hv => ⟨(hvs v hv).1, (hvs v hv).1.consumes⟩)
    (fun h => (hvs _ h).2 rfl) hbody hc more

lemma finished_parts (semicolonEnds : Bool) {run : List Token}
    (hrun : kinds run ∈ (ahead semicolonEnds)∗ * ending semicolonEnds) (unfinished : Finding)
    (more : List Token) :
    Finished (consumeParts semicolonEnds unfinished (run ++ more)) more := by
  obtain ⟨front, hfront, last, hlast, hkinds⟩ := Language.mem_mul.mp hrun
  obtain ⟨vs, rfl, hvs⟩ := Language.mem_kstar.mp hfront
  obtain ⟨values, close, rfl, hvalues, rfl⟩ := List.map_eq_append_iff.mp hkinds.symm
  have hcases : semicolonEnds = true ∧ kinds close = [.semicolon] ∨ kinds close ∈ block := by
    cases semicolonEnds with
    | true => exact hlast.imp (fun h => ⟨rfl, h⟩) id
    | false => exact .inr hlast
  rw [List.append_assoc, consumeParts]
  rcases hcases with ⟨hends, hclose⟩ | hclose
  · obtain ⟨c, rfl, hc⟩ := List.map_eq_singleton_iff.mp hclose
    obtain ⟨hend, hfinished⟩ := finished_prelude hvs hvalues (.inl ⟨hends, hc, rfl⟩) more
    rw [List.singleton_append]
    simp only [hend]
    exact hfinished
  · obtain ⟨t, body, rfl, ht, hblock⟩ := finished_block hclose
    obtain ⟨hend, hnone, hleft⟩ :=
      finished_prelude hvs hvalues (.inr ⟨ht, rfl⟩) (body ++ more)
    rw [List.cons_append]
    simp only [hend, Finished, hnone, List.nil_append]
    rw [hleft]
    exact hblock more

lemma exists_ignored {list : ListKind} {run : List Token} (hrun : kinds run ∈ gap list) :
    ∃ t, run = [t] ∧ list.ignores t.kind := by
  have hsingle : ∃ k, kinds run = [k] := by
    cases list with
    | topLevel =>
      rcases hrun with (h | h) | h
      · exact ⟨_, h⟩
      · exact ⟨_, h⟩
      · exact ⟨_, h⟩
    | nested => exact ⟨_, hrun⟩
  obtain ⟨k, hk⟩ := hsingle
  obtain ⟨t, rfl, rfl⟩ := List.map_eq_singleton_iff.mp hk
  exact ⟨t, rfl, mem_gap.mp hrun⟩

/-- **One item** of a list of rules leaves nothing open. -/
lemma findings_item {list : ListKind} {run : List Token}
    (hrun : kinds run ∈ gap list + atRule + qualifiedRule list) (more : List Token) :
    (consumeRules list (run ++ more)).findings = (consumeRules list more).findings := by
  rcases hrun with (hgap | hrule) | ⟨hrule, hfirst⟩
  · obtain ⟨t, rfl, hi⟩ := exists_ignored hgap
    rw [List.singleton_append, consumeRules, if_pos hi]
  · rw [atRule, mul_assoc] at hrule
    obtain ⟨_, rfl, parts, hparts, hkinds⟩ := Language.mem_mul.mp hrule
    obtain ⟨t, body, rfl, ht, rfl⟩ := List.map_eq_cons_iff.mp hkinds.symm
    have hi : ¬ list.ignores t.kind := by
      rw [ht]
      cases list <;> simp [ListKind.ignores]
    obtain ⟨hnone, hleft⟩ :=
      finished_parts true hparts ⟨.unclosedAtRule, t.span⟩ more
    rw [List.cons_append, consumeRules, if_neg hi, if_pos ht, consumeAtRule]
    simp only [hnone, List.nil_append]
    rw [hleft]
  · rcases run with _ | ⟨t, body⟩
    · exact absurd hrule (by simp [Language.mem_mul, block])
    · obtain ⟨hi, ha⟩ := hfirst t.kind rfl
      obtain ⟨hnone, hleft⟩ :=
        finished_parts false hrule ⟨.missingBlock, t.span⟩ more
      rw [List.cons_append] at hnone hleft
      rw [List.cons_append, consumeRules, if_neg (fun h => hi (mem_gap.mpr h)), if_neg ha,
        consumeQualifiedRule]
      simp only [hnone, List.nil_append]
      rw [hleft]
      split_ifs <;> rfl

/-- **Completeness**: rules that are derived leave nothing open. -/
theorem findings_rules {list : ListKind} {ts : List Token} (h : kinds ts ∈ rules list) :
    (consumeRules list ts).findings = [] := by
  obtain ⟨items, hflat, hitems⟩ := Language.mem_kstar.mp h
  induction items generalizing ts with
  | nil =>
    obtain rfl : ts = [] := List.map_eq_nil_iff.mp hflat
    rw [consumeRules]
  | cons item items ih =>
    obtain ⟨first, rest, rfl, rfl, hrest⟩ := List.map_eq_append_iff.mp hflat
    have hmore : ∀ x ∈ items, x ∈ gap list + atRule + qualifiedRule list :=
      fun x hx => hitems x (List.mem_cons_of_mem _ hx)
    rw [findings_item (hitems _ List.mem_cons_self)]
    exact ih (by rw [kinds, hrest]; exact Language.join_mem_kstar hmore) hrest hmore

lemma findings_eq_nil_iff (list : ListKind) (ts : List Token) :
    (consumeRules list ts).findings = [] ↔ kinds ts ∈ rules list :=
  ⟨derived_rules, findings_rules⟩

end Grammar

namespace Source

variable (s : Source) (list : ListKind)

/-- No token is malformed, and the tokens without the comments are derived from the grammar. -/
def IsClean : Prop :=
  s.lexErrors = [] ∧
    (s.tokens.filter fun t => t.kind ≠ .comments).map Token.kind ∈ Grammar.rules list

lemma lexical_eq_nil_iff : s.tokens.filterMap Token.finding? = [] ↔ s.lexErrors = [] := by
  rw [lexErrors, List.filterMap_eq_nil_iff, List.filterMap_eq_nil_iff]
  simp only [Token.finding?, Token.lexError?, Option.map_eq_none_iff]

/-- A text has no problems exactly if it is clean. -/
lemma problems_eq_nil_iff : s.problems list = [] ↔ s.IsClean list := by
  have hperm := sortFindings_perm ((s.sheet list).findings ++ s.tokens.filterMap Token.finding?)
  have hnil : s.problems list = [] ↔
      (s.sheet list).findings ++ s.tokens.filterMap Token.finding? = [] := by
    constructor
    · intro h
      exact (hperm.symm.trans (.of_eq h)).eq_nil
    · intro h
      exact (hperm.trans (.of_eq h)).eq_nil
  rw [hnil, List.append_eq_nil_iff, lexical_eq_nil_iff, sheet, Grammar.findings_eq_nil_iff,
    and_comm]
  rfl

lemma exists_outcome {p : Parse} (h : s.parse .topLevel = .ok p) (path : String) :
    ∃ outcome, Command.check.work path s = .ok outcome ∧
      (outcome.exit = 0 ↔ p.diagnostics = []) := by
  have hnone : p.diagnostics = [] ↔ p.findings.length = 0 := by
    rw [Parse.diagnostics, List.map_eq_nil_iff, List.length_eq_zero_iff]
  rw [Command.work, h, hnone]
  by_cases hcount : p.findings.length = 0
  · exact ⟨_, if_pos hcount, by simp [hcount]⟩
  · exact ⟨_, if_neg hcount, by simp [hcount]⟩

/-- **Only derived texts have no problems**, whatever the place to start at and the kind of list,
and the command that checks a text accepts just those. Only a text too long for its tree to be
counted in a word is not parsed. -/
theorem accepts_iff_derived (path : String) :
    (match s.parse list with
      | .ok p => p.diagnostics = [] ↔ s.IsClean list
      | .error e => e = .overflow componentCapacity ∧
          componentCapacity < s.text.length - s.location + 2) ∧
    match Command.check.work path s with
    | .ok outcome => outcome.exit = 0 ↔ s.IsClean .topLevel
    | .error _ => s.parse .topLevel = .error (.overflow componentCapacity) := by
  have hparse : ∀ kind, ∃ p : Parse, (p.diagnostics = [] ↔ s.IsClean kind) ∧
      s.parse kind = reserve componentCapacity (1 + (s.sheet kind).written) (.ok p) := by
    intro kind
    refine ⟨_, ?_, s.parse_eq_reserve kind⟩
    rw [← problems_eq_nil_iff]
    exact List.map_eq_nil_iff
  refine ⟨?_, ?_⟩
  · obtain ⟨p, hclean, hp⟩ := hparse list
    have hwritten := s.written_sheet_le list
    rw [hp, reserve]
    split_ifs with hroom
    · exact hclean
    · exact ⟨rfl, by omega⟩
  · obtain ⟨p, hclean, hp⟩ := hparse .topLevel
    rw [reserve] at hp
    split_ifs at hp with hroom
    · obtain ⟨outcome, hwork, hexit⟩ := s.exists_outcome hp path
      rw [hwork]
      exact hexit.trans hclean
    · rw [Command.work, hp]
      rfl

end Source

end Stylesheet
