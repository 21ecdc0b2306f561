import Mathlib.Data.List.TakeWhile
import Stylesheet.Proofs.Progress

/-!
What the scanners see of what follows. A scanner that stays inside the front part `u` of a text
`u ++ v` reads the same if the rest `v` is exchanged for nothing at all or for something that starts
with a slash, since neither goes on with anything. There are few exceptions, and each comes from a
look past the end of the part: a backslash escapes whatever is not a newline, a string goes on up to
a newline or its quote, and behind `url(` a quote makes the difference.
-/

namespace Stylesheet.Text

/-- The end of a text, or a text that starts with a slash. -/
def Neutral (w : List Char) : Prop := w = [] ∨ ∃ r, w = '/' :: r

/-- A size that depends on what follows a part of the text only if it reaches past that part. -/
def Local (v w : List Char) (size : List Char → ℕ) : Prop :=
  ∀ u, size (u ++ v) ≤ u.length → size (u ++ w) = size (u ++ v)

section

variable {v w : List Char}

lemma Local.seq {f g : List Char → ℕ} (hf : Local v w f) (hg : Local v w g) :
    Local v w fun cs => f cs + g (cs.drop (f cs)) := by
  intro u h
  simp only at h
  have hle : f (u ++ v) ≤ u.length := by omega
  have hfirst := hf u hle
  have hdrop : ∀ x : List Char, (u ++ x).drop (f (u ++ v)) = u.drop (f (u ++ v)) ++ x :=
    fun x => List.drop_append_of_le_length hle
  simp only [hfirst, hdrop] at h ⊢
  rw [hg]
  rw [List.length_drop]
  omega

lemma takeWhile_append_of_le {p : Char → Bool} {u : List Char}
    (h : ((u ++ v).takeWhile p).length ≤ u.length) :
    (u ++ v).takeWhile p = u.takeWhile p := by
  rw [List.takeWhile_append] at h ⊢
  split_ifs at h ⊢ with hall
  · rw [List.length_append] at h
    have hnil : (v.takeWhile p) = [] := List.length_eq_zero_iff.mp (by omega)
    have hself : u.takeWhile p = u := (List.takeWhile_prefix p).eq_of_length hall
    rw [hnil, List.append_nil, hself]
  · rfl

lemma Neutral.takeWhile_append {p : Char → Bool} (hw : Neutral w) (hp : p '/' = false)
    (u : List Char) : (u ++ w).takeWhile p = u.takeWhile p := by
  apply takeWhile_append_of_le
  have hnil : w.takeWhile p = [] := by
    obtain rfl | ⟨r, rfl⟩ := hw
    · rfl
    · simp [hp]
  rw [List.takeWhile_append]
  split_ifs
  · simp [hnil]
  · exact (List.takeWhile_prefix p).length_le

lemma Neutral.local_takeWhile {p : Char → Bool} (hw : Neutral w) (hp : p '/' = false) :
    Local v w fun cs => (cs.takeWhile p).length := by
  intro u h
  simp only [takeWhile_append_of_le h, hw.takeWhile_append hp]

lemma Neutral.local_blankSize (hw : Neutral w) : Local v w blankSize :=
  hw.local_takeWhile (by decide)

lemma Neutral.local_digitsSize (hw : Neutral w) : Local v w digitsSize :=
  hw.local_takeWhile (by decide)

/-! ### Units -/

lemma units_of_some {α : Type} {size : α → ℕ} {next : List Char → Option α}
    (hadvances : Advances size next) {cs : List Char} {a : α} (h : next cs = some a) :
    units size next cs = a :: units size next (cs.drop (size a)) := by
  have hpos := (hadvances h).1
  obtain ⟨n, hn⟩ : ∃ n, size a = n + 1 := ⟨size a - 1, by omega⟩
  rcases cs with _ | ⟨c, r⟩
  · have hle := (hadvances h).2
    simp only [List.length_nil] at hle
    omega
  · rw [units_cons size next h, hn]
    rfl

/-- Induction along a run of units: from the text behind a unit to the one before it. -/
lemma units_induction {α : Type} {size : α → ℕ} {next : List Char → Option α}
    (hadvances : Advances size next) {motive : List Char → Prop}
    (stop : ∀ cs, next cs = none → units size next cs = [] → motive cs)
    (unit : ∀ cs a, next cs = some a →
      units size next cs = a :: units size next (cs.drop (size a)) →
      motive (cs.drop (size a)) → motive cs)
    (cs : List Char) : motive cs := by
  induction hn : cs.length using Nat.strongRecOn generalizing cs with
  | ind n ih =>
    rcases ha : next cs with _ | a
    · exact stop cs ha (units_of_none _ _ ha)
    · obtain ⟨hpos, hle⟩ := hadvances ha
      exact unit cs a ha (units_of_some hadvances ha)
        (ih _ (by rw [List.length_drop]; omega) _ rfl)

lemma declines_behind_units {α : Type} {size : α → ℕ} {next : List Char → Option α}
    (hadvances : Advances size next) (cs : List Char) :
    next (cs.drop (taken size (units size next cs))) = none := by
  induction cs using units_induction hadvances with
  | stop cs hnone hnil =>
    rw [hnil]
    exact hnone
  | unit cs a _ hunits ih => rwa [hunits, taken, ← List.drop_drop]

/-- **Runs of units**: where every unit is the same for both rests, and the run ends at the same
place, the run is the same. The units keep away from the end of the part by `slack`. -/
lemma units_append {α : Type} {size : α → ℕ} {next : List Char → Option α} (slack : ℕ)
    (hadvances : Advances size next)
    (hstep : ∀ u a, next (u ++ v) = some a → size a + slack ≤ u.length → next (u ++ w) = some a)
    {u : List Char} (h : taken size (units size next (u ++ v)) + slack ≤ u.length)
    (hstop : next (u.drop (taken size (units size next (u ++ v))) ++ v) = none →
      next (u.drop (taken size (units size next (u ++ v))) ++ w) = none) :
    units size next (u ++ w) = units size next (u ++ v) := by
  induction hn : u.length using Nat.strongRecOn generalizing u with
  | ind n ih =>
    rcases ha : next (u ++ v) with _ | a
    · rw [units_of_none _ _ ha] at hstop ⊢
      exact units_of_none _ _ (hstop ha)
    · obtain ⟨hpos, -⟩ := hadvances ha
      rw [units_of_some hadvances ha, taken] at h hstop
      have hle : size a ≤ u.length := by omega
      have hw := hstep u a ha (by omega)
      have hdrop : ∀ x : List Char, (u ++ x).drop (size a) = u.drop (size a) ++ x :=
        fun x => List.drop_append_of_le_length hle
      rw [units_of_some hadvances ha, units_of_some hadvances hw]
      rw [hdrop] at h hstop ⊢
      rw [hdrop, ih (u.drop (size a)).length (by rw [List.length_drop]; omega) _ _ rfl]
      · rw [List.length_drop]
        omega
      · rwa [List.drop_drop]

lemma pieces_append {next : List Char → Option Piece} (slack : ℕ)
    (hadvances : Advances Piece.size next)
    (hstep : ∀ u p, next (u ++ v) = some p → p.size + slack ≤ u.length → next (u ++ w) = some p)
    {u : List Char} (h : extent (pieces next (u ++ v)) + slack ≤ u.length)
    (hstop : next (u.drop (extent (pieces next (u ++ v))) ++ v) = none →
      next (u.drop (extent (pieces next (u ++ v))) ++ w) = none) :
    pieces next (u ++ w) = pieces next (u ++ v) := by
  rw [extent_eq_taken] at h hstop
  exact units_append slack hadvances hstep h hstop

/-! ### Escapes and the readers that use them -/

lemma Neutral.take (hw : Neutral w) (n : ℕ) : Neutral (w.take n) := by
  obtain rfl | ⟨r, rfl⟩ := hw
  · exact .inl List.take_nil
  · cases n with
    | zero => exact .inl rfl
    | succ n => exact .inr ⟨r.take n, rfl⟩

lemma Neutral.local_oneBlank (hw : Neutral w) : Local v w fun cs => min 1 (blankSize cs) := by
  intro u h
  cases u with
  | nil =>
    have hnone : blankSize w = 0 := by
      have hempty := hw.takeWhile_append (p := isBlank) (by decide) []
      simpa [blankSize] using hempty
    simp only [List.nil_append, List.length_nil] at h ⊢
    omega
  | cons c u =>
    by_cases hc : isBlank c
    · simp [blankSize, hc]
    · simp [blankSize, hc]

lemma length_hexDigits (cs : List Char) :
    (hexDigits cs).length = ((cs.take 6).takeWhile fun c => (hexDigit? c).isSome).length := by
  rw [hexDigits, List.filterMap_length_eq_length]
  intro c hc
  have hdigit := List.mem_takeWhile_imp hc
  exact hdigit

lemma hexDigits_append (hw : Neutral w) {u : List Char}
    (h : (hexDigits (u ++ v)).length ≤ u.length) : hexDigits (u ++ w) = hexDigits (u ++ v) := by
  have hsix : (hexDigits (u ++ v)).length ≤ 6 := by
    rw [length_hexDigits]
    exact Nat.le_trans (List.takeWhile_prefix _).length_le (List.length_take_le 6 _)
  rw [length_hexDigits, List.take_append] at h hsix
  rw [hexDigits, hexDigits, List.take_append, List.take_append, (hw.take _).takeWhile_append
    (by decide), takeWhile_append_of_le]
  rw [List.length_take]
  omega

lemma escape_size_pos {cs : List Char} (h : cs ≠ []) : 0 < (escape cs).size := by
  obtain ⟨c, r, rfl⟩ := List.exists_cons_of_ne_nil h
  unfold escape
  rcases hexDigits (c :: r) with _ | ⟨d, ds⟩
  · exact Nat.one_pos
  · simp only [List.length_cons]
    omega

lemma escape_append (hv : v ≠ []) (hw : Neutral w) {u : List Char}
    (h : (escape (u ++ v)).size ≤ u.length) : escape (u ++ w) = escape (u ++ v) := by
  rcases u with _ | ⟨c, u⟩
  · have hpos := escape_size_pos hv
    simp only [List.nil_append, List.length_nil] at h
    omega
  · have hdigits := hexDigits_append (v := v) (u := c :: u) hw
    unfold escape at h ⊢
    simp only [List.cons_append] at h hdigits ⊢
    rcases hd : hexDigits (c :: (u ++ v)) with _ | ⟨d, ds⟩
    · simp only [hd] at hdigits ⊢
      rw [hdigits (Nat.zero_le _)]
    · simp only [hd, List.length_cons] at h hdigits ⊢
      rw [hdigits (by omega)]
      have hblank := hw.local_oneBlank (v := v) (u.drop ds.length)
      have hdrop : ∀ x : List Char, (u ++ x).drop ds.length = u.drop ds.length ++ x :=
        fun x => List.drop_append_of_le_length (by omega)
      simp only [List.drop_succ_cons, hdrop, List.length_drop] at h hblank ⊢
      rw [hblank (by omega)]

/-- A backslash at the end of a part that a newline follows: it escapes nothing, but would escape
anything else. -/
def Dangling (u v : List Char) : Prop := u = ['\\'] ∧ v.head? = some '\n'

lemma startsEscape_append (c d : Char) (u x : List Char) :
    startsEscape (c :: (d :: u ++ x)) = startsEscape (c :: d :: u) := rfl

lemma escapePiece_size_gt (hv : v ≠ []) : 1 < (escapePiece v).size := by
  have hpos := escape_size_pos hv
  rw [escapePiece_size]
  omega

lemma escapePiece_append (hv : v ≠ []) (hw : Neutral w) {u : List Char}
    (h : (escapePiece (u ++ v)).size ≤ u.length + 1) :
    escapePiece (u ++ w) = escapePiece (u ++ v) := by
  rw [escapePiece_size] at h
  rw [escapePiece, escapePiece, escape_append hv hw (by omega)]

lemma namePiece?_append (hv : v ≠ []) (hw : Neutral w) (u : List Char) (p : Piece)
    (hp : namePiece? (u ++ v) = some p) (h : p.size ≤ u.length) :
    namePiece? (u ++ w) = some p := by
  have hpos := (namePiece?_advances hp).1
  rcases u with _ | ⟨c, u⟩
  · rw [List.length_nil] at h
    omega
  · rw [List.cons_append, namePiece?] at hp ⊢
    by_cases hc : isNameChar c
    · rwa [if_pos hc] at hp ⊢
    · rw [if_neg hc] at hp ⊢
      rcases u with _ | ⟨d, u⟩
      · -- the escape would end behind the part
        split_ifs at hp
        cases hp
        have hsize := escapePiece_size_gt hv
        simp only [List.nil_append, List.length_singleton] at h hsize
        omega
      · rw [startsEscape_append] at hp ⊢
        split_ifs at hp ⊢
        cases hp
        rw [escapePiece_append hv hw h]

/-- A name ends at the same place, unless that is a dangling backslash. -/
lemma namePiece?_eq_none_append (hv : v ≠ []) (hw : Neutral w) {u : List Char}
    (hu : ¬ Dangling u v) (h : namePiece? (u ++ v) = none) : namePiece? (u ++ w) = none := by
  rcases u with _ | ⟨c, _ | ⟨d, u⟩⟩
  · obtain rfl | ⟨r, rfl⟩ := hw
    · rfl
    · cases r <;> rfl
  · obtain ⟨d, r, rfl⟩ := List.exists_cons_of_ne_nil hv
    rw [List.singleton_append, namePiece?] at h ⊢
    split_ifs at h with hc hescape
    have hslash : c ≠ '\\' := by
      rintro rfl
      refine hu ⟨rfl, ?_⟩
      simpa [startsEscape] using hescape
    rw [if_neg hc, if_neg]
    cases w <;> simp [startsEscape, hslash]
  · rw [List.cons_append, namePiece?] at h ⊢
    rw [startsEscape_append] at h ⊢
    split_ifs at h ⊢
    rfl

lemma stringPiece?_append (hv : v ≠ []) (hw : Neutral w) (quote : Char) (u : List Char)
    (p : Piece) (hp : stringPiece? quote (u ++ v) = some p) (h : p.size ≤ u.length) :
    stringPiece? quote (u ++ w) = some p := by
  have hpos := (stringPiece?_advances quote hp).1
  rcases u with _ | ⟨c, _ | ⟨d, u⟩⟩
  · rw [List.length_nil] at h
    omega
  · obtain ⟨d, r, rfl⟩ := List.exists_cons_of_ne_nil hv
    have hsize := escapePiece_size_gt hv
    rw [List.length_singleton] at h
    simp only [List.singleton_append, stringPiece?] at hp ⊢
    split_ifs at hp ⊢
    · -- what the backslash takes would end behind the part
      cases hp
      simp only at h
      omega
    · cases hp
      omega
    · exact hp
  · simp only [List.cons_append, stringPiece?] at hp ⊢
    split_ifs at hp ⊢
    · exact hp
    · cases hp
      rw [List.length_cons] at h
      have hpiece := escapePiece_append hv hw (u := d :: u) (by simp only [List.cons_append]; omega)
      rw [List.cons_append] at hpiece
      rw [hpiece]
      rfl
    · exact hp

lemma stringPiece?_eq_none_iff (quote c : Char) (r : List Char) :
    stringPiece? quote (c :: r) = none ↔ c = quote ∨ c = '\n' := by
  simp only [stringPiece?]
  split_ifs with hc hslash
  · simp [hc]
  · rcases r with _ | ⟨d, r⟩
    · simp [hc]
    · simp only [hc, iff_false]
      split_ifs <;> simp
  · simp [hc]

lemma urlPiece?_append (hv : v ≠ []) (hw : Neutral w) (u : List Char) (p : Piece)
    (hp : urlPiece? (u ++ v) = some p) (h : p.size + 1 ≤ u.length) :
    urlPiece? (u ++ w) = some p := by
  have hpos := (urlPiece?_advances hp).1
  rcases u with _ | ⟨c, _ | ⟨d, u⟩⟩
  · simp only [List.length_nil] at h
    omega
  · simp only [List.length_singleton] at h
    omega
  · simp only [List.cons_append, urlPiece?] at hp ⊢
    rw [← List.cons_append, startsEscape_append] at hp ⊢
    split_ifs at hp ⊢
    · cases hp
      rw [List.length_cons] at h
      rw [escapePiece_append hv hw (by omega)]
    · exact hp

lemma urlPiece?_eq_none_append {u : List Char} (hu : u ≠ []) (hdangling : ¬ Dangling u v)
    (hv : v ≠ []) (h : urlPiece? (u ++ v) = none) : urlPiece? (u ++ w) = none := by
  rcases u with _ | ⟨c, _ | ⟨d, u⟩⟩
  · exact absurd rfl hu
  · obtain ⟨d, r, rfl⟩ := List.exists_cons_of_ne_nil hv
    simp only [List.singleton_append, urlPiece?] at h ⊢
    split_ifs at h with hc hslash hescape
    · rw [if_pos hc]
    · refine absurd ⟨by rw [hslash], ?_⟩ hdangling
      simpa [startsEscape, hslash] using hescape
  · simp only [List.cons_append, urlPiece?] at h ⊢
    rw [← List.cons_append, startsEscape_append] at h ⊢
    split_ifs at h ⊢ <;> rfl

lemma remnantPiece?_append (hv : v ≠ []) (hw : Neutral w) (u : List Char) (p : Piece)
    (hp : remnantPiece? (u ++ v) = some p) (h : p.size + 1 ≤ u.length) :
    remnantPiece? (u ++ w) = some p := by
  have hpos := (remnantPiece?_advances hp).1
  rcases u with _ | ⟨c, _ | ⟨d, u⟩⟩
  · simp only [List.length_nil] at h
    omega
  · simp only [List.length_singleton] at h
    omega
  · simp only [List.cons_append, remnantPiece?] at hp ⊢
    rw [← List.cons_append, startsEscape_append] at hp ⊢
    split_ifs at hp ⊢
    · cases hp
      rw [List.length_cons] at h
      rw [escapePiece_append hv hw (by omega)]
    · exact hp

lemma remnantPiece?_eq_none_iff (c : Char) (r : List Char) :
    remnantPiece? (c :: r) = none ↔ c = ')' := by
  simp only [remnantPiece?]
  split_ifs with hc <;> simp [hc]

/-! ### Runs of pieces -/

lemma drop_append_le {u : List Char} {n : ℕ} (h : n ≤ u.length) (x : List Char) :
    (u ++ x).drop n = u.drop n ++ x := List.drop_append_of_le_length h

lemma namePieces_append (hv : v ≠ []) (hw : Neutral w) {u : List Char}
    (h : nameSize (u ++ v) ≤ u.length) (hu : ¬ Dangling (u.drop (nameSize (u ++ v))) v) :
    namePieces (u ++ w) = namePieces (u ++ v) :=
  pieces_append 0 namePiece?_advances (namePiece?_append hv hw) h
    (namePiece?_eq_none_append hv hw hu)

/-- A name stays the same in a part that it does not reach past, unless a backslash behind it is all
that the part has left. -/
lemma nameText_take_of_le {cs : List Char} {n : ℕ} (h : nameSize cs ≤ n)
    (hstop : (cs.take n).drop (nameSize cs) ≠ ['\\']) :
    nameSize (cs.take n) = nameSize cs ∧ nameText (cs.take n) = nameText cs := by
  have hpieces : namePieces (cs.take n) = namePieces cs := by
    rcases Nat.lt_or_ge n cs.length with hlt | hge
    · have hv : cs.drop n ≠ [] := by
        rw [Ne, List.drop_eq_nil_iff]
        omega
      have hsame := namePieces_append (u := cs.take n) (v := cs.drop n) (w := []) hv (.inl rfl)
      rw [List.take_append_drop, List.append_nil, List.length_take] at hsame
      exact hsame (by omega) fun hd => hstop hd.1
    · rw [List.take_of_length_le hge]
  exact ⟨by rw [nameSize, hpieces, nameSize], by rw [nameText, hpieces, nameText]⟩

lemma nameText_take_paren {cs r : List Char} (h : cs.drop (nameSize cs) = '(' :: r) (k : ℕ) :
    nameSize (cs.take (nameSize cs + 1 + k)) = nameSize cs ∧
      nameText (cs.take (nameSize cs + 1 + k)) = nameText cs := by
  refine nameText_take_of_le (by omega) ?_
  rw [List.drop_take, h, Nat.add_assoc, Nat.add_sub_cancel_left, Nat.add_comm 1,
    List.take_succ_cons]
  simp

lemma exists_cons_of_lt {u : List Char} {n : ℕ} (h : n < u.length) :
    ∃ c r, u.drop n = c :: r := by
  apply List.exists_cons_of_ne_nil
  rw [Ne, List.drop_eq_nil_iff]
  omega

lemma stringPieces_append (hv : v ≠ []) (hw : Neutral w) (quote : Char) {u : List Char}
    (h : extent (stringPieces quote (u ++ v)) < u.length) :
    stringPieces quote (u ++ w) = stringPieces quote (u ++ v) := by
  refine pieces_append 0 (stringPiece?_advances quote) (stringPiece?_append hv hw quote)
    (Nat.le_of_lt h) ?_
  obtain ⟨c, r, hc⟩ := exists_cons_of_lt h
  rw [stringPieces] at hc
  rw [hc, List.cons_append, List.cons_append, stringPiece?_eq_none_iff, stringPiece?_eq_none_iff]
  exact id

lemma urlPieces_append (hv : v ≠ []) (hw : Neutral w) {u : List Char}
    (h : extent (urlPieces (u ++ v)) < u.length)
    (hu : ¬ Dangling (u.drop (extent (urlPieces (u ++ v)))) v) :
    urlPieces (u ++ w) = urlPieces (u ++ v) := by
  refine pieces_append 1 urlPiece?_advances (urlPiece?_append hv hw) h ?_
  refine urlPiece?_eq_none_append ?_ hu hv
  rw [Ne, List.drop_eq_nil_iff]
  exact Nat.not_le_of_lt h

lemma remnantPieces_append (hv : v ≠ []) (hw : Neutral w) {u : List Char}
    (h : extent (remnantPieces (u ++ v)) < u.length) :
    remnantPieces (u ++ w) = remnantPieces (u ++ v) := by
  refine pieces_append 1 remnantPiece?_advances (remnantPiece?_append hv hw) h ?_
  obtain ⟨c, r, hc⟩ := exists_cons_of_lt h
  rw [remnantPieces] at hc
  rw [hc, List.cons_append, List.cons_append, remnantPiece?_eq_none_iff, remnantPiece?_eq_none_iff]
  exact id

/-! ### Numbers -/

lemma Neutral.local_signSize (hw : Neutral w) : Local v w signSize := by
  intro u h
  cases u with
  | nil =>
    have hsign : signSize w = 0 := by
      obtain rfl | ⟨r, rfl⟩ := hw <;> rfl
    simp only [List.nil_append, List.length_nil] at h ⊢
    omega
  | cons c u => rfl

lemma startsDigits_eq (cs : List Char) : startsDigits cs = decide (0 < digitsSize cs) := by
  rcases cs with _ | ⟨c, r⟩
  · rfl
  · by_cases hc : c.isDigit
    · simp [startsDigits, digitsSize, hc]
    · simp [startsDigits, digitsSize, hc]

lemma Neutral.local_fractionSize (hw : Neutral w) : Local v w fractionSize := by
  intro u h
  rcases u with _ | ⟨c, u⟩
  · have hfraction : fractionSize w = 0 := by
      obtain rfl | ⟨r, rfl⟩ := hw <;> rfl
    simp only [List.nil_append, List.length_nil] at h ⊢
    omega
  · simp only [fractionSize, List.cons_append, startsFraction, startsDigits_eq, List.drop_succ_cons,
      List.drop_zero, List.length_cons] at h ⊢
    by_cases hd : digitsSize (u ++ v) ≤ u.length
    · rw [hw.local_digitsSize u hd]
    · -- the digits would reach into the rest
      split_ifs at h with hpoint
      · omega
      · have hnot : ¬ (c == '.') = true := fun hc => hpoint (by simp [hc]; omega)
        simp [hnot]

lemma signSize_le_one (cs : List Char) : signSize cs ≤ 1 := by
  rcases cs with _ | ⟨c, r⟩
  · exact Nat.zero_le 1
  · rw [signSize]
    split_ifs <;> omega

lemma Neutral.exponentSize_singleton (hw : Neutral w) (c : Char) : exponentSize (c :: w) = 0 := by
  obtain rfl | ⟨r, rfl⟩ := hw
  · simp [exponentSize, startsDigits]
  · have hsign : signSize ('/' :: r) = 0 := rfl
    have hdigits : startsDigits ('/' :: r) = false := rfl
    simp [exponentSize, hsign, hdigits]

lemma Neutral.local_exponentSize (hw : Neutral w) : Local v w exponentSize := by
  intro u h
  rcases u with _ | ⟨c, u⟩
  · have hexponent : exponentSize w = 0 := by
      obtain rfl | ⟨r, rfl⟩ := hw
      · rfl
      · simp [exponentSize]
    simp only [List.nil_append, List.length_nil] at h ⊢
    omega
  · rcases Nat.lt_or_ge u.length (signSize (u ++ v)) with hs | hs
    · -- only a sign right behind the part reaches past it, and no sign is a number
      have hone := signSize_le_one (u ++ v)
      obtain rfl : u = [] := List.length_eq_zero_iff.mp (by omega)
      rw [List.singleton_append, hw.exponentSize_singleton]
      simp only [exponentSize, List.singleton_append, List.nil_append, List.length_singleton]
        at h hs ⊢
      split_ifs at h ⊢
      · omega
      · rfl
    · have hsign := hw.local_signSize u hs
      have hdrop : ∀ x : List Char, (u ++ x).drop (signSize (u ++ v)) =
          u.drop (signSize (u ++ v)) ++ x := fun x => List.drop_append_of_le_length hs
      simp only [exponentSize, List.cons_append, startsDigits_eq, List.length_cons] at h ⊢
      simp only [hsign, hdrop] at h ⊢
      by_cases hd : digitsSize (u.drop (signSize (u ++ v)) ++ v) ≤
          (u.drop (signSize (u ++ v))).length
      · rw [hw.local_digitsSize _ hd]
      · rw [List.length_drop] at hd
        split_ifs at h with hmark
        · omega
        · have hnot : ¬ (c = 'e' ∨ c = 'E') := fun hc => hmark ⟨hc, by simp; omega⟩
          simp [hnot]

lemma Neutral.local_numberSize (hw : Neutral w) : Local v w numberSize :=
  ((hw.local_signSize.seq hw.local_digitsSize).seq hw.local_fractionSize).seq
    hw.local_exponentSize

/-! ### What can start here -/

lemma startsFraction_eq (cs : List Char) :
    startsFraction cs = decide (0 < fractionSize cs) := by
  unfold fractionSize
  split_ifs with h
  · rw [h, eq_comm, decide_eq_true_iff]
    omega
  · simpa using h

lemma startsNumber_eq (cs : List Char) :
    startsNumber cs =
      (startsDigits (cs.drop (signSize cs)) || startsFraction (cs.drop (signSize cs))) := by
  rcases cs with _ | ⟨c, r⟩
  · rfl
  · by_cases hc : isSign c
    · simp [startsNumber, signSize, hc]
    · simp [startsNumber, signSize, hc]

lemma signSize_append {u : List Char} (hu : u ≠ []) :
    signSize (u ++ w) = signSize (u ++ v) ∧ signSize (u ++ v) ≤ u.length := by
  obtain ⟨c, u, rfl⟩ := List.exists_cons_of_ne_nil hu
  have hone := signSize_le_one (c :: u ++ v)
  refine ⟨rfl, ?_⟩
  rw [List.length_cons]
  omega

lemma startsNumber_append (hw : Neutral w) {u : List Char} (hu : u ≠ [])
    (h : numberSize (u ++ v) ≤ u.length) (hnumber : startsNumber (u ++ v)) :
    startsNumber (u ++ w) := by
  obtain ⟨hsign, hle⟩ := signSize_append (v := v) (w := w) hu
  rw [startsNumber_eq, Bool.or_eq_true] at hnumber ⊢
  unfold numberSize at h
  rw [hsign, drop_append_le hle]
  simp only [drop_append_le hle] at h hnumber
  have hdigits : digitsSize (u.drop (signSize (u ++ v)) ++ v) ≤
      (u.drop (signSize (u ++ v))).length := by
    rw [List.length_drop]
    omega
  rw [startsDigits_eq, hw.local_digitsSize _ hdigits, ← startsDigits_eq]
  by_cases hstart : startsDigits (u.drop (signSize (u ++ v)) ++ v)
  · exact .inl hstart
  · refine .inr ?_
    rw [startsDigits_eq, decide_eq_true_iff, Nat.pos_iff_ne_zero, not_not] at hstart
    simp only [hstart, Nat.add_zero, drop_append_le hle] at h hnumber
    have hfraction : fractionSize (u.drop (signSize (u ++ v)) ++ v) ≤
        (u.drop (signSize (u ++ v))).length := by
      rw [List.length_drop]
      omega
    rw [startsFraction_eq, hw.local_fractionSize _ hfraction, ← startsFraction_eq]
    rw [startsDigits_eq, hstart] at hnumber
    simpa using hnumber

lemma Neutral.not_startsDigits (hw : Neutral w) : startsDigits w = false := by
  obtain rfl | ⟨r, rfl⟩ := hw <;> rfl

lemma startsNumber_of_neutral (hw : Neutral w) {u : List Char} (hu : u ≠ [])
    (h : startsNumber (u ++ w)) : startsNumber (u ++ v) := by
  obtain ⟨hsign, hle⟩ := signSize_append (v := v) (w := w) hu
  rw [startsNumber_eq, Bool.or_eq_true] at h ⊢
  rw [hsign, drop_append_le hle] at h
  rw [drop_append_le hle]
  have hdigits := hw.not_startsDigits
  generalize u.drop (signSize (u ++ v)) = body at h ⊢
  rcases body with _ | ⟨c, _ | ⟨d, r⟩⟩
  · have hfraction : startsFraction w = false := by
      obtain rfl | ⟨r, rfl⟩ := hw <;> rfl
    simp [hdigits, hfraction] at h
  · rcases h with h | h
    · exact .inl h
    · simp [startsFraction, hdigits] at h
  · exact h

lemma startsName_dash (d : Char) (r : List Char) :
    startsName ('-' :: d :: r) = (isNameStart d || d == '-' || startsEscape (d :: r)) := rfl

lemma startsName_slash (r : List Char) : startsName ('\\' :: r) = startsEscape ('\\' :: r) := rfl

lemma startsName_other {c : Char} (hdash : c ≠ '-') (hslash : c ≠ '\\') (r : List Char) :
    startsName (c :: r) = isNameStart c := by
  simp [startsName, hdash, hslash]

lemma eq_slash_of_startsEscape {c : Char} {r : List Char} (h : startsEscape (c :: r)) :
    c = '\\' := by
  cases r with
  | nil => simpa [startsEscape] using h
  | cons d r =>
    simp only [startsEscape, Bool.and_eq_true, beq_iff_eq] at h
    exact h.1

lemma nameSize_cons {c : Char} (hc : isNameChar c) (r : List Char) :
    nameSize (c :: r) = 1 + nameSize r := by
  have hpiece : namePiece? (c :: r) = some ⟨some c, 1⟩ := by
    rw [namePiece?, if_pos hc]
  rw [nameSize, namePieces, pieces, units_cons _ _ hpiece, extent]
  rfl

lemma startsEscape_of_nameSize (hv : v ≠ []) {c : Char} {u : List Char}
    (h : nameSize (c :: u ++ v) ≤ u.length + 1) (hescape : startsEscape (c :: u ++ v)) :
    startsEscape (c :: u ++ w) := by
  rcases u with _ | ⟨d, u⟩
  · -- the escape takes two code points at least
    obtain rfl := eq_slash_of_startsEscape hescape
    have hpiece : namePiece? ('\\' :: v) = some (escapePiece v) := by
      rw [namePiece?, if_neg (by decide)]
      exact if_pos hescape
    have hsize := escapePiece_size_gt hv
    rw [List.singleton_append, nameSize, namePieces, pieces, units_cons _ _ hpiece, extent,
      List.length_nil] at h
    omega
  · exact hescape

lemma startsName_append (hv : v ≠ []) {u : List Char} (h : nameSize (u ++ v) ≤ u.length)
    (hname : startsName (u ++ v)) : startsName (u ++ w) := by
  have hpos := nameSize_pos (namePiece?_of_startsName hname)
  rcases u with _ | ⟨c, u⟩
  · rw [List.length_nil] at h
    omega
  by_cases hdash : c = '-'
  · subst hdash
    rw [List.cons_append, nameSize_cons (by decide), List.length_cons] at h
    rcases u with _ | ⟨d, u⟩
    · -- the name would go on in the rest
      obtain ⟨d, r, rfl⟩ := List.exists_cons_of_ne_nil hv
      have hmore : (namePiece? (d :: r)).isSome := by
        rw [List.singleton_append, startsName_dash] at hname
        rw [namePiece?]
        split_ifs with hd hescape
        · rfl
        · rfl
        · simp only [isNameChar, Bool.or_eq_true, not_or] at hd
          simp [hd, hescape] at hname
      have hsize := nameSize_pos hmore
      simp only [List.nil_append, List.length_nil] at h
      omega
    · rw [List.cons_append, List.cons_append, startsName_dash, Bool.or_eq_true] at hname ⊢
      refine hname.imp id fun hescape => ?_
      exact startsEscape_of_nameSize hv (by rw [List.length_cons] at h; omega) hescape
  · by_cases hslash : c = '\\'
    · subst hslash
      exact startsEscape_of_nameSize hv h hname
    · rw [List.cons_append, startsName_other hdash hslash] at hname ⊢
      exact hname

/-- A part after which a newline keeps a name from starting, and nothing else would. -/
def Withheld (u v : List Char) : Prop :=
  Dangling u v ∨ ∃ r, u = '-' :: r ∧ Dangling r v

lemma startsEscape_of_neutral (hv : v ≠ []) {c : Char} {u : List Char}
    (hu : ¬ Dangling (c :: u) v) (h : startsEscape (c :: u ++ w)) : startsEscape (c :: u ++ v) := by
  rcases u with _ | ⟨d, u⟩
  · obtain rfl := eq_slash_of_startsEscape h
    obtain ⟨d, r, rfl⟩ := List.exists_cons_of_ne_nil hv
    have hd : d ≠ '\n' := fun hd => hu ⟨rfl, by rw [hd]; rfl⟩
    simp [startsEscape, hd]
  · exact h

/-- What is a name before a neutral rest is one before any, unless a newline keeps it from that. -/
lemma startsName_of_neutral (hv : v ≠ []) (hw : Neutral w) {u : List Char}
    (hu : ¬ Withheld u v) (h : startsName (u ++ w)) : startsName (u ++ v) := by
  rcases u with _ | ⟨c, u⟩
  · obtain rfl | ⟨r, rfl⟩ := hw
    · cases h
    · cases h
  by_cases hdash : c = '-'
  · subst hdash
    rcases u with _ | ⟨d, u⟩
    · obtain rfl | ⟨r, rfl⟩ := hw
      · cases h
      · cases r <;> cases h
    · rw [List.cons_append, List.cons_append, startsName_dash, Bool.or_eq_true] at h ⊢
      refine h.imp id fun hescape => ?_
      exact startsEscape_of_neutral hv (fun hd => hu (.inr ⟨_, rfl, hd⟩)) hescape
  · by_cases hslash : c = '\\'
    · subst hslash
      exact startsEscape_of_neutral hv (fun hd => hu (.inl hd)) h
    · rw [List.cons_append, startsName_other hdash hslash] at h ⊢
      exact h

lemma isPrefixOf_append (literal : List Char) {c : Char} {r : List Char}
    (hlength : literal.length ≤ r.length + 1) (h : literal.isPrefixOf (c :: (r ++ v))) :
    literal.isPrefixOf (c :: (r ++ w)) := by
  rw [← List.cons_append, List.isPrefixOf_iff_prefix] at h ⊢
  exact (List.prefix_of_prefix_length_le h (List.prefix_append (c :: r) v) hlength).trans
    (List.prefix_append (c :: r) w)

lemma isPrefixOf_of_neutral (hw : Neutral w) {literal : List Char} (hslash : '/' ∉ literal.tail)
    {c : Char} {r : List Char} (h : literal.isPrefixOf (c :: (r ++ w))) :
    literal.isPrefixOf (c :: (r ++ v)) := by
  rw [← List.cons_append, List.isPrefixOf_iff_prefix] at h ⊢
  rcases Nat.le_total literal.length (c :: r).length with hle | hle
  · exact (List.prefix_of_prefix_length_le h (List.prefix_append (c :: r) w) hle).trans
      (List.prefix_append (c :: r) v)
  · -- the literal would have to go on with a slash
    obtain ⟨more, rfl⟩ := List.prefix_of_prefix_length_le (List.prefix_append (c :: r) w) h hle
    have hmore : more <+: w := by simpa using h
    rcases more with _ | ⟨d, more⟩
    · simp
    · obtain rfl | ⟨t, rfl⟩ := hw
      · simp at hmore
      · obtain ⟨rfl, -⟩ := List.cons_prefix_cons.mp hmore
        simp at hslash

/-! ### Comments -/

lemma commentRest?_cons (c : Char) (r : List Char) :
    commentRest? (c :: r) =
      if c = '*' ∧ r.head? = some '/' then some 2 else (commentRest? r).map (1 + ·) := by
  split_ifs with h
  · obtain ⟨rfl, hr⟩ := h
    obtain ⟨r, rfl⟩ : ∃ t, r = '/' :: t := by
      rcases r with _ | ⟨d, t⟩
      · simp at hr
      · exact ⟨t, by simpa using hr⟩
    rfl
  · rw [commentRest?]
    rintro t rfl rfl
    exact h ⟨rfl, rfl⟩

lemma two_le_of_commentRest? {cs : List Char} {n : ℕ} (h : commentRest? cs = some n) : 2 ≤ n := by
  induction cs generalizing n with
  | nil => cases h
  | cons c r ih =>
    rw [commentRest?_cons] at h
    split_ifs at h
    · cases h
      exact Nat.le_refl 2
    · obtain ⟨m, hm, rfl⟩ := Option.map_eq_some_iff.mp h
      have hle := ih hm
      omega

lemma commentRest?_append {u : List Char} {n : ℕ} (h : commentRest? (u ++ v) = some n)
    (hn : n ≤ u.length) : commentRest? (u ++ w) = some n := by
  have htwo := two_le_of_commentRest? h
  induction u generalizing n with
  | nil =>
    rw [List.length_nil] at hn
    omega
  | cons c u ih =>
    rcases u with _ | ⟨d, u⟩
    · rw [List.length_singleton] at hn
      omega
    · have hhead : ∀ x : List Char, (d :: u ++ x).head? = some d := fun _ => rfl
      rw [List.cons_append, commentRest?_cons, hhead] at h ⊢
      split_ifs at h ⊢
      · exact h
      · obtain ⟨m, hm, rfl⟩ := Option.map_eq_some_iff.mp h
        rw [ih hm (by rw [List.length_cons] at hn; omega) (two_le_of_commentRest? hm)]
        rfl

lemma exists_of_comment? {cs : List Char} {a : Comment} (h : comment? cs = some a) :
    ∃ r, cs = '/' :: '*' :: r := by
  unfold comment? at h
  split at h
  · exact ⟨_, rfl⟩
  · cases h

lemma exists_comment (r : List Char) : ∃ a, comment? ('/' :: '*' :: r) = some a := by
  rw [comment?]
  split
  · exact ⟨_, rfl⟩
  · exact ⟨_, rfl⟩

lemma two_le_size_of_comment? {cs : List Char} {a : Comment} (h : comment? cs = some a) :
    2 ≤ a.size := by
  obtain ⟨r, rfl⟩ := exists_of_comment? h
  rw [comment?] at h
  split at h
  · cases h
    exact Nat.le_add_right 2 _
  · cases h
    exact Nat.le_add_right 2 _

lemma comment?_append (hv : v ≠ []) (u : List Char) (a : Comment) (h : comment? (u ++ v) = some a)
    (ha : a.size ≤ u.length) : comment? (u ++ w) = some a := by
  obtain ⟨r, hr⟩ := exists_of_comment? h
  have hopen := two_le_size_of_comment? h
  rcases u with _ | ⟨c, _ | ⟨d, u⟩⟩
  · rw [List.length_nil] at ha
    omega
  · rw [List.length_singleton] at ha
    omega
  · obtain ⟨rfl, rfl, rfl⟩ : c = '/' ∧ d = '*' ∧ u ++ v = r := by simpa using hr
    simp only [List.cons_append, comment?, List.length_cons] at h ha ⊢
    rcases hrest : commentRest? (u ++ v) with _ | n
    · -- without a terminator the comment would take the rest too
      have hpos := List.length_pos_of_ne_nil hv
      rw [hrest] at h
      cases h
      simp only [List.length_append] at ha
      omega
    · rw [hrest] at h
      cases h
      rw [commentRest?_append hrest (by simp only at ha; omega)]

lemma comment?_eq_none_append (hw : Neutral w) {u : List Char} (hu : u = [] → comment? w = none)
    (h : comment? (u ++ v) = none) : comment? (u ++ w) = none := by
  by_contra hsome
  obtain ⟨a, ha⟩ := Option.ne_none_iff_exists'.mp hsome
  obtain ⟨r, hr⟩ := exists_of_comment? ha
  rcases u with _ | ⟨c, _ | ⟨d, u⟩⟩
  · exact hsome (hu rfl)
  · obtain rfl | ⟨r, rfl⟩ := hw <;> simp at hr
  · obtain ⟨rfl, rfl, -⟩ : c = '/' ∧ d = '*' ∧ u ++ w = r := by simpa using hr
    simp only [List.cons_append, comment?] at h
    split at h <;> cases h

/-- A run of comments in the part is the same for both rests, if no comment follows it. -/
lemma commentRun_append (hv : v ≠ []) (hw : Neutral w) {u : List Char}
    (h : runSize (commentRun (u ++ v)) ≤ u.length)
    (hend : runSize (commentRun (u ++ v)) = u.length → comment? w = none) :
    commentRun (u ++ w) = commentRun (u ++ v) := by
  rw [runSize_eq_taken] at h hend
  refine units_append 0 comment?_advances (comment?_append hv) h ?_
  refine comment?_eq_none_append hw fun hnil => hend ?_
  rw [List.drop_eq_nil_iff] at hnil
  exact Nat.le_antisymm h hnil

end

end Stylesheet.Text
