import Mathlib.Computability.RegularExpressions
import Stylesheet.Proofs.Naming

/-!
Numbers are the longest matches of a regular expression. The scanner takes a sign, digits, a
fraction and an exponent, one after the other and each as far as it goes. That is the longest match,
since what could go on with one part never starts the next one: a part that stops early is the last.
-/

namespace Stylesheet.Text

open scoped Computability

/-- The longest front part of a text that the expression matches. -/
structure LongestMatch (e : RegularExpression Char) (w t : List Char) : Prop where
  front : w <+: t
  mem : w ∈ e.matches'
  longest : ∀ v, v <+: t → v ∈ e.matches' → v.length ≤ w.length

lemma LongestMatch.unique {e : RegularExpression Char} {v w t : List Char}
    (hv : LongestMatch e v t) (hw : LongestMatch e w t) : v = w := by
  have hlength := Nat.le_antisymm (hw.longest v hv.front hv.mem) (hv.longest w hw.front hw.mem)
  exact (List.prefix_of_prefix_length_le hv.front hw.front hlength.le).eq_of_length hlength

namespace Numeral

/-! ### The expression -/

def anyOf (cs : List Char) : RegularExpression Char := (cs.map RegularExpression.char).sum

def optional (e : RegularExpression Char) : RegularExpression Char := 1 + e

def sign : RegularExpression Char := anyOf ['+', '-']

def digit : RegularExpression Char := anyOf ['0', '1', '2', '3', '4', '5', '6', '7', '8', '9']

def digits : RegularExpression Char := digit * digit.star

def fraction : RegularExpression Char := .char '.' * digits

def exponent : RegularExpression Char := anyOf ['e', 'E'] * optional sign * digits

/-- `[+-]?([0-9]+(\.[0-9]+)?|\.[0-9]+)([eE][+-]?[0-9]+)?` -/
def expression : RegularExpression Char :=
  optional sign * (digits * optional fraction + fraction) * optional exponent

/-! ### What its parts match -/

lemma mem_anyOf {cs w : List Char} : w ∈ (anyOf cs).matches' ↔ ∃ c ∈ cs, w = [c] := by
  induction cs with
  | nil => simp [anyOf]
  | cons c cs ih =>
    have hsplit : anyOf (c :: cs) = .char c + anyOf cs := rfl
    rw [hsplit, RegularExpression.matches'_add, Language.mem_add, ih]
    simp only [List.mem_cons, exists_eq_or_imp]
    rfl

lemma mem_optional {e : RegularExpression Char} {w : List Char} :
    w ∈ (optional e).matches' ↔ w = [] ∨ w ∈ e.matches' := Iff.rfl

lemma mem_sign {w : List Char} : w ∈ sign.matches' ↔ ∃ c, isSign c ∧ w = [c] := by
  rw [sign, mem_anyOf]
  simp [isSign]

lemma isDigit_iff_mem {c : Char} :
    c.isDigit ↔ c ∈ ['0', '1', '2', '3', '4', '5', '6', '7', '8', '9'] := by
  constructor
  · intro h
    obtain ⟨hlow, hhigh⟩ := isDigit_iff.mp h
    have hvalues : c.toNat ∈ List.range' 48 10 := by
      rw [List.mem_range'_1]
      omega
    have hall : ∀ n ∈ List.range' 48 10, Char.ofNat n ∈
        ['0', '1', '2', '3', '4', '5', '6', '7', '8', '9'] := by decide
    rw [← Char.ofNat_toNat c]
    exact hall _ hvalues
  · intro h
    have hall : ['0', '1', '2', '3', '4', '5', '6', '7', '8', '9'].Forall (·.isDigit) := by decide
    exact List.forall_iff_forall_mem.mp hall c h

lemma mem_digit {w : List Char} : w ∈ digit.matches' ↔ ∃ c, c.isDigit ∧ w = [c] := by
  rw [digit, mem_anyOf]
  simp only [isDigit_iff_mem]

lemma mem_star_digit {w : List Char} : w ∈ digit.star.matches' ↔ ∀ c ∈ w, c.isDigit := by
  rw [RegularExpression.matches'_star, Language.mem_kstar]
  constructor
  · rintro ⟨ws, rfl, hws⟩ c hc
    obtain ⟨v, hv, hcv⟩ := List.mem_flatten.mp hc
    obtain ⟨d, hd, rfl⟩ := mem_digit.mp (hws v hv)
    rwa [List.mem_singleton.mp hcv]
  · intro h
    have hflat : (w.map fun c => [c]).flatten = w := List.flatMap_singleton' w
    refine ⟨w.map fun c => [c], hflat.symm, fun v hv => ?_⟩
    obtain ⟨c, hc, rfl⟩ := List.mem_map.mp hv
    exact mem_digit.mpr ⟨c, h c hc, rfl⟩

lemma mem_digits {w : List Char} : w ∈ digits.matches' ↔ w ≠ [] ∧ ∀ c ∈ w, c.isDigit := by
  rw [digits, RegularExpression.matches'_mul, Language.mem_mul]
  constructor
  · rintro ⟨_, hfirst, v, hv, rfl⟩
    obtain ⟨c, hc, rfl⟩ := mem_digit.mp hfirst
    rw [mem_star_digit] at hv
    exact ⟨by simp, by simpa [hc] using hv⟩
  · rintro ⟨hne, hall⟩
    obtain ⟨c, v, rfl⟩ := List.exists_cons_of_ne_nil hne
    rw [List.forall_mem_cons] at hall
    exact ⟨[c], mem_digit.mpr ⟨c, hall.1, rfl⟩, v, mem_star_digit.mpr hall.2, rfl⟩

lemma mem_fraction {w : List Char} :
    w ∈ fraction.matches' ↔ ∃ ds, ds ∈ digits.matches' ∧ w = '.' :: ds := by
  rw [fraction, RegularExpression.matches'_mul, Language.mem_mul]
  constructor
  · rintro ⟨_, rfl, ds, hds, rfl⟩
    exact ⟨ds, hds, rfl⟩
  · rintro ⟨ds, hds, rfl⟩
    exact ⟨['.'], rfl, ds, hds, rfl⟩

lemma mem_exponent {w : List Char} : w ∈ exponent.matches' ↔
    ∃ c a ds, (c = 'e' ∨ c = 'E') ∧ a ∈ (optional sign).matches' ∧ ds ∈ digits.matches' ∧
      w = c :: (a ++ ds) := by
  rw [exponent, RegularExpression.matches'_mul, RegularExpression.matches'_mul]
  simp only [Language.mem_mul, mem_anyOf]
  constructor
  · rintro ⟨_, ⟨_, ⟨c, hc, rfl⟩, a, ha, rfl⟩, ds, hds, rfl⟩
    exact ⟨c, a, ds, by simpa using hc, ha, hds, rfl⟩
  · rintro ⟨c, a, ds, hc, ha, hds, rfl⟩
    exact ⟨[c] ++ a, ⟨[c], ⟨c, by simpa using hc, rfl⟩, a, ha, rfl⟩, ds, hds, rfl⟩

/-! ### Taking as much as there is -/

/-- At the front of every text, `size` is the length of the longest word of `l`. A word could only
go on with characters of which `more` holds. -/
structure Greedy (l : Language Char) (size : List Char → ℕ) (more : Char → Prop) : Prop where
  size_le (t : List Char) : size t ≤ t.length
  take_mem (t : List Char) : t.take (size t) ∈ l
  length_le {w r : List Char} : w ∈ l → w.length ≤ size (w ++ r)
  next {w r : List Char} {c : Char} : w ∈ l → w.length < size (w ++ c :: r) → more c

/-- **One part after the other** is the longest, if no word of the second part starts with what the
first could go on with. -/
theorem Greedy.seq {l m : Language Char} {p q : List Char → ℕ} {j k : Char → Prop}
    (hp : Greedy l p j) (hq : Greedy m q k) (hseam : ∀ c r, c :: r ∈ m → ¬ j c) :
    Greedy (l * m) (fun t => p t + q (t.drop (p t))) (fun c => j c ∨ k c) := by
  -- a first part that stops early is followed by nothing
  have hearly : ∀ u v r, u ∈ l → v ∈ m → u.length < p (u ++ (v ++ r)) → v = [] := by
    intro u v r hu hv hlt
    rcases v with _ | ⟨c, v⟩
    · rfl
    · exact absurd (hp.next hu hlt) (hseam c v hv)
  have hdrop : ∀ u r, p (u ++ r) = u.length → (u ++ r).drop (p (u ++ r)) = r := by
    intro u r hsize
    rw [hsize, List.drop_left]
  refine ⟨fun t => ?_, fun t => ?_, ?_, ?_⟩
  · have hfirst := hp.size_le t
    have hsecond := hq.size_le (t.drop (p t))
    rw [List.length_drop] at hsecond
    omega
  · rw [List.take_add]
    exact Language.append_mem_mul (hp.take_mem t) (hq.take_mem _)
  · rintro w r ⟨u, hu, v, hv, rfl⟩
    rw [List.append_assoc, List.length_append]
    rcases Nat.eq_or_lt_of_le (hp.length_le (r := v ++ r) hu) with hfull | hlt
    · have hrest := hq.length_le (r := r) hv
      rw [hdrop u _ hfull.symm]
      omega
    · obtain rfl := hearly u v r hu hv hlt
      rw [List.length_nil]
      omega
  · rintro w r c ⟨u, hu, v, hv, rfl⟩ hlt
    rw [List.append_assoc, List.length_append] at hlt
    rcases Nat.eq_or_lt_of_le (hp.length_le (r := v ++ c :: r) hu) with hfull | hshort
    · rw [hdrop u _ hfull.symm] at hlt
      exact .inr (hq.next (r := r) hv (by omega))
    · obtain rfl := hearly u v _ hu hv hshort
      exact .inl (hp.next hu hshort)

/-- A word that cannot go on with what follows is all that is taken. -/
lemma Greedy.size_eq {l : Language Char} {size : List Char → ℕ} {more : Char → Prop}
    (h : Greedy l size more) {w : List Char} (hw : w ∈ l) {c : Char} (hc : ¬ more c)
    (r : List Char) : size (w ++ c :: r) = w.length := by
  refine Nat.le_antisymm (Nat.le_of_not_lt fun hlt => hc (h.next hw hlt)) (h.length_le hw)

lemma greedy_sign : Greedy (optional sign).matches' signSize (isSign ·) := by
  refine ⟨signSize_le, fun t => ?_, ?_, ?_⟩
  · rcases t with _ | ⟨c, r⟩
    · exact mem_optional.mpr (.inl rfl)
    · rw [signSize]
      split_ifs with hc
      · exact mem_optional.mpr (.inr (mem_sign.mpr ⟨c, hc, rfl⟩))
      · exact mem_optional.mpr (.inl rfl)
  · intro w r hw
    rcases mem_optional.mp hw with rfl | hw
    · exact Nat.zero_le _
    · obtain ⟨c, hc, rfl⟩ := mem_sign.mp hw
      simp [signSize, hc]
  · intro w r c hw hlt
    rcases mem_optional.mp hw with rfl | hw
    · by_contra hc
      simp [signSize, hc] at hlt
    · obtain ⟨d, hd, rfl⟩ := mem_sign.mp hw
      have hone := signSize_le_one ([d] ++ c :: r)
      rw [List.length_singleton] at hlt
      omega

lemma greedy_digits : Greedy digit.star.matches' digitsSize (·.isDigit) := by
  refine ⟨digitsSize_le, fun t => ?_, ?_, ?_⟩
  · have htake : t.take (digitsSize t) = t.takeWhile Char.isDigit :=
      (List.prefix_iff_eq_take.mp (List.takeWhile_prefix _)).symm
    rw [htake, mem_star_digit]
    exact fun c hc => List.mem_takeWhile_imp hc
  · intro w r hw
    rw [digitsSize, List.takeWhile_append_of_pos (mem_star_digit.mp hw), List.length_append]
    exact Nat.le_add_right _ _
  · intro w r c hw hlt
    rw [digitsSize, List.takeWhile_append_of_pos (mem_star_digit.mp hw), List.length_append] at hlt
    by_contra hc
    rw [List.takeWhile_cons_of_neg hc, List.length_nil] at hlt
    omega

lemma startsDigits_append {ds : List Char} (h : ds ∈ digits.matches') (r : List Char) :
    startsDigits (ds ++ r) ∧ ds ∈ digit.star.matches' := by
  obtain ⟨hne, hall⟩ := mem_digits.mp h
  obtain ⟨c, ds, rfl⟩ := List.exists_cons_of_ne_nil hne
  exact ⟨hall c List.mem_cons_self, mem_star_digit.mpr hall⟩

lemma take_digitsSize_mem {t : List Char} (h : startsDigits t) :
    t.take (digitsSize t) ∈ digits.matches' := by
  refine mem_digits.mpr ⟨?_, mem_star_digit.mp (greedy_digits.take_mem t)⟩
  have hpos := digitsSize_pos h
  have hle := digitsSize_le t
  rw [Ne, List.take_eq_nil_iff, not_or]
  refine ⟨by omega, ?_⟩
  rintro rfl
  cases h

lemma fractionSize_append {ds : List Char} (h : ds ∈ digits.matches') (r : List Char) :
    fractionSize ('.' :: ds ++ r) = 1 + digitsSize (ds ++ r) := by
  have hstart : startsFraction ('.' :: ds ++ r) := (startsDigits_append h r).1
  rw [fractionSize, if_pos hstart]
  rfl

lemma greedy_fraction :
    Greedy (optional fraction).matches' fractionSize (fun c => c = '.' ∨ c.isDigit) := by
  refine ⟨fractionSize_le, fun t => ?_, ?_, ?_⟩
  · rw [fractionSize]
    split_ifs with h
    · rcases t with _ | ⟨c, r⟩
      · cases h
      · simp only [startsFraction, Bool.and_eq_true, beq_iff_eq] at h
        obtain ⟨rfl, hdigits⟩ := h
        refine mem_optional.mpr (.inr (mem_fraction.mpr ⟨_, take_digitsSize_mem hdigits, ?_⟩))
        rw [Nat.add_comm]
        rfl
    · exact mem_optional.mpr (.inl rfl)
  · intro w r hw
    rcases mem_optional.mp hw with rfl | hw
    · exact Nat.zero_le _
    · obtain ⟨ds, hds, rfl⟩ := mem_fraction.mp hw
      have hle := greedy_digits.length_le (r := r) (startsDigits_append hds []).2
      rw [fractionSize_append hds, List.length_cons]
      omega
  · intro w r c hw hlt
    rcases mem_optional.mp hw with rfl | hw
    · refine .inl ?_
      by_contra hc
      simp [fractionSize, startsFraction, hc] at hlt
    · obtain ⟨ds, hds, rfl⟩ := mem_fraction.mp hw
      rw [fractionSize_append hds, List.length_cons] at hlt
      exact .inr (greedy_digits.next (r := r) (startsDigits_append hds []).2 (by omega))

lemma not_isSign_of_isDigit {c : Char} (h : c.isDigit) : ¬ isSign c := by
  simp only [isSign, Bool.or_eq_true, beq_iff_eq]
  rintro (rfl | rfl) <;> cases h

lemma signSize_digits {a ds : List Char} (ha : a ∈ (optional sign).matches')
    (hds : ds ∈ digits.matches') (r : List Char) : signSize (a ++ (ds ++ r)) = a.length := by
  obtain ⟨hne, hall⟩ := mem_digits.mp hds
  obtain ⟨d, ds, rfl⟩ := List.exists_cons_of_ne_nil hne
  exact greedy_sign.size_eq ha (not_isSign_of_isDigit (hall d List.mem_cons_self)) _

lemma exponentSize_append {c : Char} {a ds : List Char} (hc : c = 'e' ∨ c = 'E')
    (ha : a ∈ (optional sign).matches') (hds : ds ∈ digits.matches') (r : List Char) :
    exponentSize (c :: (a ++ ds) ++ r) = 1 + a.length + digitsSize (ds ++ r) := by
  have hsign := signSize_digits ha hds r
  rw [List.cons_append, List.append_assoc]
  simp only [exponentSize, hsign, List.drop_left]
  exact if_pos ⟨hc, (startsDigits_append hds r).1⟩

lemma greedy_exponent : Greedy (optional exponent).matches' exponentSize (fun _ => True) := by
  refine ⟨exponentSize_le, fun t => ?_, ?_, fun _ _ => trivial⟩
  · rcases t with _ | ⟨c, r⟩
    · exact mem_optional.mpr (.inl rfl)
    · simp only [exponentSize]
      split_ifs with h
      · refine mem_optional.mpr (.inr (mem_exponent.mpr ⟨c, _, _, h.1, greedy_sign.take_mem r,
          take_digitsSize_mem h.2, ?_⟩))
        rw [← List.take_add, Nat.add_assoc, Nat.add_comm 1]
        rfl
      · exact mem_optional.mpr (.inl rfl)
  · intro w r hw
    rcases mem_optional.mp hw with rfl | hw
    · exact Nat.zero_le _
    · obtain ⟨c, a, ds, hc, ha, hds, rfl⟩ := mem_exponent.mp hw
      have hle := greedy_digits.length_le (r := r) (startsDigits_append hds []).2
      rw [exponentSize_append hc ha hds, List.length_cons, List.length_append]
      omega

/-! ### The whole number -/

/-- **The scanner is greedy** in all four parts, each of which may be empty. -/
theorem greedy_number : ∃ more, Greedy ((optional sign).matches' * digit.star.matches' *
    (optional fraction).matches' * (optional exponent).matches') numberSize more := by
  have hwhole := greedy_sign.seq greedy_digits fun c r hw =>
    not_isSign_of_isDigit (mem_star_digit.mp hw c List.mem_cons_self)
  have hmantissa := hwhole.seq greedy_fraction fun c r hw => by
    rcases mem_optional.mp hw with hw | hw
    · cases hw
    · obtain ⟨ds, -, hdot⟩ := mem_fraction.mp hw
      obtain ⟨rfl, -⟩ := List.cons.inj hdot
      decide
  refine ⟨_, hmantissa.seq greedy_exponent fun c r hw => ?_⟩
  rcases mem_optional.mp hw with hw | hw
  · cases hw
  · obtain ⟨d, a, ds, hd, -, -, hmark⟩ := mem_exponent.mp hw
    obtain ⟨rfl, -⟩ := List.cons.inj hmark
    rcases hd with rfl | rfl <;> decide

lemma mem_of_mem_expression {w : List Char} (h : w ∈ expression.matches') :
    w ∈ (optional sign).matches' * digit.star.matches' * (optional fraction).matches' *
      (optional exponent).matches' := by
  obtain ⟨_, ⟨a, ha, m, hm, rfl⟩, e, he, rfl⟩ := h
  refine Language.append_mem_mul ?_ he
  rcases hm with ⟨ds, hds, f, hf, rfl⟩ | hf
  · have hword := Language.append_mem_mul
      (Language.append_mem_mul ha (startsDigits_append hds []).2) hf
    rwa [List.append_assoc] at hword
  · have hword := Language.append_mem_mul
      (Language.append_mem_mul ha (Language.nil_mem_kstar digit.matches'))
      (mem_optional.mpr (.inr hf))
    rwa [List.append_nil] at hword

lemma take_mantissa_mem {t : List Char} (h : startsDigits t ∨ startsFraction t) :
    t.take (digitsSize t) ++ (t.drop (digitsSize t)).take (fractionSize (t.drop (digitsSize t))) ∈
      (digits * optional fraction + fraction).matches' := by
  by_cases hdigits : startsDigits t
  · exact .inl (Language.append_mem_mul (take_digitsSize_mem hdigits) (greedy_fraction.take_mem _))
  · have hnone : digitsSize t = 0 := by
      rw [startsDigits_eq, decide_eq_true_iff] at hdigits
      omega
    have hfraction := h.resolve_left hdigits
    rw [startsFraction_eq, decide_eq_true_iff] at hfraction
    have hle := fractionSize_le t
    rw [hnone, List.take_zero, List.drop_zero, List.nil_append]
    refine .inr ((mem_optional.mp (greedy_fraction.take_mem t)).resolve_left ?_)
    rw [List.take_eq_nil_iff, not_or]
    refine ⟨by omega, ?_⟩
    rintro rfl
    cases hfraction

lemma take_numberSize_mem {t : List Char} (h : startsNumber t) :
    t.take (numberSize t) ∈ expression.matches' := by
  rw [startsNumber_eq, Bool.or_eq_true] at h
  have hmantissa := take_mantissa_mem h
  rw [List.drop_drop] at hmantissa
  unfold numberSize
  rw [List.take_add, List.take_add, List.take_add, List.append_assoc (t.take _)]
  exact Language.append_mem_mul (Language.append_mem_mul (greedy_sign.take_mem t) hmantissa)
    (greedy_exponent.take_mem _)

lemma exists_cons_of_mantissa {t : List Char} (h : startsDigits t ∨ startsFraction t) :
    ∃ c r, t = c :: r ∧ ¬ isSign c := by
  rcases t with _ | ⟨c, r⟩
  · rcases h with h | h <;> cases h
  · refine ⟨c, r, rfl, ?_⟩
    rcases h with h | h
    · exact not_isSign_of_isDigit h
    · simp only [startsFraction, Bool.and_eq_true, beq_iff_eq] at h
      obtain ⟨rfl, -⟩ := h
      decide

lemma startsNumber_of_mem {w : List Char} (h : w ∈ expression.matches') (r : List Char) :
    startsNumber (w ++ r) := by
  obtain ⟨_, ⟨a, ha, m, hm, rfl⟩, e, -, rfl⟩ := h
  have hmantissa : startsDigits (m ++ (e ++ r)) ∨ startsFraction (m ++ (e ++ r)) := by
    rcases hm with ⟨ds, hds, f, -, rfl⟩ | hf
    · refine .inl ?_
      have hdigits := (startsDigits_append hds (f ++ (e ++ r))).1
      rwa [← List.append_assoc] at hdigits
    · obtain ⟨ds, hds, rfl⟩ := mem_fraction.mp hf
      exact .inr (startsDigits_append hds (e ++ r)).1
  have hsign : signSize (a ++ (m ++ (e ++ r))) = a.length := by
    obtain ⟨c, t, hcons, hc⟩ := exists_cons_of_mantissa hmantissa
    rw [hcons]
    exact greedy_sign.size_eq ha hc t
  rw [List.append_assoc, List.append_assoc, startsNumber_eq, Bool.or_eq_true, hsign,
    List.drop_left]
  exact hmantissa

/-- **The longest match** is what the scanner takes, and there is one just where a number starts. -/
theorem longestMatch_take {t : List Char} (h : startsNumber t) :
    LongestMatch expression (t.take (numberSize t)) t := by
  obtain ⟨more, hgreedy⟩ := greedy_number
  refine ⟨List.take_prefix _ _, take_numberSize_mem h, ?_⟩
  rintro v ⟨r, rfl⟩ hv
  rw [List.length_take, Nat.min_eq_left (hgreedy.size_le _)]
  exact hgreedy.length_le (mem_of_mem_expression hv)

/-! ### Its characters -/

def letters : RegularExpression Char → List Char
  | .zero | .epsilon => []
  | .char c => [c]
  | .plus e f | .comp e f => letters e ++ letters f
  | .star e => letters e

lemma mem_letters {e : RegularExpression Char} {w : List Char} (h : w ∈ e.matches') :
    ∀ c ∈ w, c ∈ letters e := by
  induction e generalizing w with
  | zero => cases h
  | epsilon =>
    obtain rfl : w = [] := h
    simp
  | char a =>
    obtain rfl : w = [a] := h
    simp [letters]
  | plus e f he hf =>
    intro c hc
    rcases h with h | h
    · exact List.mem_append_left _ (he h c hc)
    · exact List.mem_append_right _ (hf h c hc)
  | comp e f he hf =>
    obtain ⟨u, hu, v, hv, rfl⟩ := h
    intro c hc
    rcases List.mem_append.mp hc with hc | hc
    · exact List.mem_append_left _ (he hu c hc)
    · exact List.mem_append_right _ (hf hv c hc)
  | star e he =>
    obtain ⟨ws, rfl, hws⟩ := Language.mem_kstar.mp h
    intro c hc
    obtain ⟨v, hv, hcv⟩ := List.mem_flatten.mp hc
    exact he (hws v hv) c hcv

lemma plain_of_mem {w : List Char} (h : w ∈ expression.matches') : ∀ c ∈ w, Plain c := by
  have hall : (letters expression).Forall Plain := by decide
  exact fun c hc => List.forall_iff_forall_mem.mp hall c (mem_letters h c hc)

end Numeral

end Stylesheet.Text

namespace Stylesheet

open Stylesheet.Text

def TokenKind.numeric : List TokenKind := [.dimension, .percentage, .number]

lemma lex_of_startsNumber {cs : List Char} (h : startsNumber cs) : lex cs = .numeric cs := by
  rcases cs with _ | ⟨c, r⟩
  · cases h
  · have hc : isSign c ∨ c.isDigit ∨ c = '.' := by
      by_cases hsign : isSign c
      · exact .inl hsign
      · rw [startsNumber, if_neg hsign] at h
        simp only [startsDigits, startsFraction, Bool.or_eq_true, Bool.and_eq_true, beq_iff_eq] at h
        exact .inr (h.imp id And.left)
    have hclass : ¬ isBlank c ∧ ¬ isQuote c := by
      simp only [isBlank, isQuote, Bool.or_eq_true, beq_iff_eq, not_or]
      refine ⟨⟨⟨?_, ?_⟩, ?_⟩, ?_, ?_⟩ <;> (rintro rfl; revert hc; decide)
    exact lex_of_number hclass.1 hclass.2 h

/-- **A number** is what a token starts with where one can start. -/
lemma lex_kind_numeric_iff (cs : List Char) :
    (lex cs).kind ∈ TokenKind.numeric ↔ startsNumber cs := by
  constructor
  · intro h
    rcases cs with _ | ⟨c, r⟩
    · simp [lex, TokenKind.numeric] at h
    have hform := lexForm c r
    generalize lex (c :: r) = l at hform h
    cases hform with
    | blanks _ => simp [TokenKind.numeric] at h
    | string _ =>
      have hstring : ∀ k ∈ [TokenKind.string, .badString], k ∉ TokenKind.numeric := by decide
      exact absurd h (hstring _ (Lexeme.string_kind c r))
    | numeric hnumber => exact hnumber
    | cdc _ => simp [TokenKind.numeric] at h
    | named _ _ =>
      have hnamed : ∀ k ∈ TokenKind.named, k ∉ TokenKind.numeric := by decide
      exact absurd h (hnamed _ (Lexeme.named_kind _))
    | mark =>
      have hmark : ∀ k ∈ TokenKind.marks, k ∉ TokenKind.numeric := by decide
      exact absurd h (hmark _ (mark_kind c r))
  · intro h
    rw [lex_of_startsNumber h]
    exact Lexeme.numeric_kind cs

lemma Lexeme.numeric_cases (cs : List Char) :
    startsName (cs.drop (numberSize cs)) ∧
        numeric cs =
          ⟨.dimension, numberSize cs + nameSize (cs.drop (numberSize cs)), none⟩ ∨
      ¬ startsName (cs.drop (numberSize cs)) ∧
        ((cs.drop (numberSize cs)).head? = some '%' ∧
            numeric cs = ⟨.percentage, numberSize cs + 1, none⟩ ∨
          (cs.drop (numberSize cs)).head? ≠ some '%' ∧
            numeric cs = ⟨.number, numberSize cs, none⟩) := by
  simp only [numeric]
  split_ifs with hname hpercent
  · exact .inl ⟨hname, rfl⟩
  · exact .inr ⟨hname, .inl ⟨hpercent, rfl⟩⟩
  · exact .inr ⟨hname, .inr ⟨hpercent, rfl⟩⟩

namespace Source

variable {s : Source}

/-- What stands at the end `e` of the number at `s` says of the token there. -/
structure NumberDecides (s e : Source) : Prop where
  dimension : startsName (e.rest.take 3) →
    s.token.kind = .dimension ∧ ∃ unit, e.ReadsName unit ⟨e.text, s.token.stop⟩
  percentage : ¬ startsName (e.rest.take 3) → e.peek = some '%' →
    s.token.kind = .percentage ∧ s.token.stop = e.location + 1
  number : ¬ startsName (e.rest.take 3) → e.peek ≠ some '%' →
    s.token.kind = .number ∧ s.token.stop = e.location

/-- The token at `s`, by what stands at the end `e` of its number. -/
lemma numeric_token_cases {e : Source} (h : startsNumber s.rest)
    (he : e = s.skip (numberSize s.rest)) :
    startsName e.rest ∧ s.token.kind = .dimension ∧
        s.token.stop = (e.skip (nameSize e.rest)).location ∨
      ¬ startsName e.rest ∧ e.peek = some '%' ∧ s.token.kind = .percentage ∧
        s.token.stop = e.location + 1 ∨
      ¬ startsName e.rest ∧ e.peek ≠ some '%' ∧ s.token.kind = .number ∧
        s.token.stop = e.location := by
  have hrest : e.rest = s.rest.drop (numberSize s.rest) := by rw [he, skip_rest]
  rw [token_kind, token_stop, lex_of_startsNumber h, peek, hrest]
  rcases Lexeme.numeric_cases s.rest with ⟨hname, hunit⟩ | ⟨hname, ⟨hpercent, hsign⟩ |
    ⟨hother, hbare⟩⟩
  · rw [hunit, he, skip_skip]
    exact .inl ⟨hname, rfl, rfl⟩
  · rw [← hrest] at hpercent
    have hnext := locationAfter_one (by decide) hpercent
    rw [he, skip_locationAfter, ← he] at hnext
    rw [hsign, ← hrest]
    exact .inr (.inl ⟨hrest ▸ hname, hpercent, rfl, hnext⟩)
  · rw [hbare, he]
    exact .inr (.inr ⟨hname, hother, rfl, rfl⟩)

/-- **What a number decides.** -/
lemma numberDecides (h : startsNumber s.rest) : s.NumberDecides (s.skip (numberSize s.rest)) := by
  have hcases := numeric_token_cases h rfl
  refine ⟨?_, ?_, ?_⟩
  all_goals rw [startsName_take]
  · intro hname
    obtain ⟨-, hkind, hstop⟩ | ⟨hnot, -⟩ | ⟨hnot, -⟩ := hcases
    · refine ⟨hkind, nameText _, readsName_iff.mpr ⟨rfl, ?_⟩⟩
      rw [hstop]
      rfl
    · exact absurd hname hnot
    · exact absurd hname hnot
  · grind
  · grind

lemma prefix_rest_iff {w : List Char} (hw : w ∈ Numeral.expression.matches') :
    w <+: s.rest ↔ w <+: s.text.drop s.location :=
  prefix_chars_decode_iff (Numeral.plain_of_mem hw)

lemma longestMatch_rest_iff {w : List Char} : LongestMatch Numeral.expression w s.rest ↔
    LongestMatch Numeral.expression w (s.text.drop s.location) := by
  constructor
  · rintro ⟨hw, hmem, hlongest⟩
    exact ⟨(prefix_rest_iff hmem).mp hw, hmem,
      fun v hv hword => hlongest v ((prefix_rest_iff hword).mpr hv) hword⟩
  · rintro ⟨hw, hmem, hlongest⟩
    exact ⟨(prefix_rest_iff hmem).mpr hw, hmem,
      fun v hv hword => hlongest v ((prefix_rest_iff hword).mp hv) hword⟩

lemma startsNumber_rest_iff : startsNumber s.rest ↔
    ∃ w, w <+: s.text.drop s.location ∧ w ∈ Numeral.expression.matches' := by
  constructor
  · intro h
    have hmatch := longestMatch_rest_iff.mp (Numeral.longestMatch_take h)
    exact ⟨_, hmatch.front, hmatch.mem⟩
  · rintro ⟨w, hw, hmem⟩
    obtain ⟨r, hr⟩ := (prefix_rest_iff hmem).mpr hw
    rw [← hr]
    exact Numeral.startsNumber_of_mem hmem r

/-- **Numbers are longest matches.** A token is one of the three kinds that start with a number just
where the expression of numbers matches; and then what stands behind the longest match says which
one it is, and where it ends. -/
theorem numbers_are_longest_matches (s : Source) :
    (s.token.kind ∈ TokenKind.numeric ↔
      ∃ w, w <+: s.text.drop s.location ∧ w ∈ Numeral.expression.matches') ∧
    (s.token.kind ∈ TokenKind.numeric →
      ∃ w, LongestMatch Numeral.expression w (s.text.drop s.location)) ∧
    ∀ w, LongestMatch Numeral.expression w (s.text.drop s.location) →
      s.NumberDecides ⟨s.text, s.location + w.length⟩ := by
  have hkind : s.token.kind ∈ TokenKind.numeric ↔ startsNumber s.rest := by
    rw [token_kind, lex_kind_numeric_iff]
  refine ⟨hkind.trans startsNumber_rest_iff, fun h => ?_, fun w hw => ?_⟩
  · exact ⟨_, longestMatch_rest_iff.mp (Numeral.longestMatch_take (hkind.mp h))⟩
  · have hnumber := startsNumber_rest_iff.mpr ⟨w, hw.front, hw.mem⟩
    have hthere := Numeral.longestMatch_take hnumber
    have hwidth := width_take_plain (Numeral.plain_of_mem hw.mem) hw.front
    obtain rfl := (longestMatch_rest_iff.mpr hw).unique hthere
    have hlength : (s.rest.take (numberSize s.rest)).length = numberSize s.rest := by
      rw [List.length_take, Nat.min_eq_left (numberSize_le _)]
    rw [hlength] at hwidth ⊢
    have hend : s.skip (numberSize s.rest) = ⟨s.text, s.location + numberSize s.rest⟩ := by
      rw [skip, locationAfter, ahead, hwidth]
    rw [← hend]
    exact numberDecides hnumber

/-- An exponent mark that no digit follows is a unit. -/
example : (⟨['1', 'e', '+'], 0⟩ : Source).token = ⟨.dimension, ⟨0, 2⟩, none⟩ := rfl

end Source

end Stylesheet
