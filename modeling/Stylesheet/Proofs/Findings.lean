import Stylesheet.Proofs.Descent

/-!
The problems that recursion meets at the end of the text are all problems of structure, while
those of single tokens are not; so the two can be told apart again after all of them are sorted.
-/

namespace Stylesheet

/-- Whether a problem is one of structure, not one of a single token. -/
def Problem.isStructural : Problem → Bool
  | .lexical _ => false
  | _ => true

def Finding.isStructural (f : Finding) : Bool := f.problem.isStructural

/-- Whether what was found is that a block or a function is not closed. -/
def Finding.isUnclosedValue (f : Finding) : Bool :=
  match f.problem with
  | .unclosedBlock _ | .unclosedFunction => true
  | _ => false

lemma Finding.isStructural_of_isUnclosedValue {f : Finding} (h : f.isUnclosedValue) :
    f.isStructural := by
  rcases f with ⟨_ | _ | _ | _ | _, span⟩ <;> first | rfl | cases h

/-! ### Sorting -/

lemma insertFinding_perm (f : Finding) (fs : List Finding) :
    (insertFinding f fs).Perm (f :: fs) := by
  fun_induction insertFinding f fs with
  | case1 => rfl
  | case2 => rfl
  | case3 g gs h ih => exact (ih.cons g).trans (List.Perm.swap f g gs)

lemma sortFindings_perm (fs : List Finding) : (sortFindings fs).Perm fs := by
  induction fs with
  | nil => rfl
  | cons f fs ih => exact (insertFinding_perm f (sortFindings fs)).trans (ih.cons f)

/-! ### Problems of structure -/

lemma filter_lexical (ts : List Token) :
    (ts.filterMap Token.finding?).filter Finding.isStructural = [] := by
  refine List.filter_eq_nil_iff.mpr fun f hf => ?_
  obtain ⟨t, -, ht⟩ := List.mem_filterMap.mp hf
  obtain ⟨k, -, rfl⟩ := Option.map_eq_some_iff.mp ht
  simp [Finding.isStructural, Problem.isStructural]

lemma unclosed_consume :
    (∀ t ts, ∀ f ∈ (consumeValue t ts).findings, f.isUnclosedValue) ∧
      ∀ closer unclosed ts, unclosed.isUnclosedValue →
        ∀ f ∈ (consumeValues closer unclosed ts).findings, f.isUnclosedValue := by
  refine consume_induction ?_ ?_ ?_ ?_ ?_ ?_
  · intro t ts ho hf f h
    simp [consumeValue_leaf ho hf] at h
  · intro t ts bracket ho ih f h
    rw [consumeValue_opener ho, consumeBlock] at h
    exact ih rfl f h
  · intro t ts hf ih f h
    rw [consumeValue_function hf, consumeFunction] at h
    exact ih rfl f h
  · intro closer unclosed hu f h
    rw [consumeValues_nil, List.mem_singleton] at h
    rw [h]; exact hu
  · intro closer unclosed t ts hc hu f h
    simp [consumeValues_close hc] at h
  · intro closer unclosed t ts hc ihv ihw hu f h
    rw [consumeValues_cons hc] at h
    rcases List.mem_append.mp h with h | h
    · exact ihv f h
    · exact ihw hu f h

lemma unclosed_block (t : Token) (bracket : Bracket) (ts : List Token) :
    ∀ f ∈ (consumeBlock t bracket ts).findings, f.isUnclosedValue := by
  rw [consumeBlock]
  exact unclosed_consume.2 _ _ _ rfl

lemma unclosed_prelude (semicolonEnds : Bool) (ts : List Token) :
    ∀ f ∈ (consumePrelude semicolonEnds ts).findings, f.isUnclosedValue := by
  fun_induction consumePrelude semicolonEnds ts with
  | case1 => simp
  | case2 => simp
  | case3 => simp
  | case4 t ts _ _ value more ih =>
    intro f h
    rcases List.mem_append.mp h with h | h
    · exact unclosed_consume.1 t ts f h
    · exact ih f h

lemma unclosed_or_unfinished {semicolonEnds : Bool} {unfinished : Finding} {ts : List Token}
    {f : Finding} (h : f ∈ (consumeParts semicolonEnds unfinished ts).findings) :
    f.isUnclosedValue ∨ f = unfinished := by
  have hprelude := unclosed_prelude semicolonEnds ts
  rw [consumeParts] at h
  rcases hend : (consumePrelude semicolonEnds ts).made.ending with _ | opening | _
  all_goals simp only [hend] at h
  · exact .inl (hprelude f h)
  · rcases List.mem_append.mp h with h | h
    · exact .inl (hprelude f h)
    · exact .inl (unclosed_block _ _ _ f h)
  · rcases List.mem_append.mp h with h | h
    · exact .inl (hprelude f h)
    · exact .inr (List.mem_singleton.mp h)

lemma structural_parts {semicolonEnds : Bool} {unfinished : Finding} {ts : List Token} {f : Finding}
    (hu : unfinished.isStructural)
    (h : f ∈ (consumeParts semicolonEnds unfinished ts).findings) : f.isStructural := by
  rcases unclosed_or_unfinished h with hvalue | rfl
  · exact Finding.isStructural_of_isUnclosedValue hvalue
  · exact hu

lemma structural_rules (list : ListKind) (ts : List Token) :
    ∀ f ∈ (consumeRules list ts).findings, f.isStructural := by
  fun_induction consumeRules list ts with
  | case1 => simp
  | case2 t ts hi ih => exact ih
  | case3 t ts hi ha rule more ih =>
    intro f h
    rcases List.mem_append.mp h with h | h
    · exact structural_parts rfl h
    · exact ih f h
  | case4 t ts hi ha rule more tree hb ih | case5 t ts hi ha rule more tree hb ih =>
    intro f h
    rcases List.mem_append.mp h with h | h
    · exact structural_parts rfl h
    · exact ih f h

end Stylesheet
