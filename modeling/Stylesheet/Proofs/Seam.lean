import Stylesheet.Proofs.Lookahead

/-!
Lexemes at a seam. A lexeme in the front part of a text stays what it is when the rest of the text
is exchanged, but for the few that look past the seam: a bad string that the newline behind the seam
has ended, a backslash that a newline follows, `url(` before a quote, and a run of comments before
another comment.
-/

namespace Stylesheet

open Stylesheet.Text

namespace Lexeme

variable {u v w : List Char}

lemma drop_append_cons {n : ℕ} (h : n < u.length) :
    ∃ c r, ∀ x : List Char, (u ++ x).drop n = c :: (r ++ x) := by
  obtain ⟨c, r, hc⟩ := exists_cons_of_lt h
  refine ⟨c, r, fun x => ?_⟩
  rw [drop_append_le (Nat.le_of_lt h), hc, List.cons_append]

lemma string_of_nil {quote : Char} {r : List Char}
    (h : r.drop (extent (stringPieces quote r)) = []) :
    string quote r = ⟨.string, 1 + extent (stringPieces quote r), some .unterminatedString⟩ := by
  simp only [string, h]

lemma string_of_cons {quote c : Char} {r t : List Char}
    (h : r.drop (extent (stringPieces quote r)) = c :: t) :
    string quote r =
      if c = quote then ⟨.string, 1 + extent (stringPieces quote r) + 1, none⟩
      else ⟨.badString, 1 + extent (stringPieces quote r), some .badString⟩ := by
  simp only [string, h]

/-- A string that ends in the part is the same for both rests, if its end does not depend on the
newline behind it. -/
lemma string_append (hv : v ≠ []) (hw : Neutral w) (quote : Char)
    (h : (string quote (u ++ v)).size ≤ 1 + u.length)
    (hbad : (string quote (u ++ v)).kind = .badString →
      (string quote (u ++ v)).size ≠ 1 + u.length) :
    string quote (u ++ w) = string quote (u ++ v) := by
  have hlength := List.length_pos_of_ne_nil hv
  have hbody : extent (stringPieces quote (u ++ v)) < u.length := by
    rcases hd : (u ++ v).drop (extent (stringPieces quote (u ++ v))) with _ | ⟨c, r⟩
    · rw [string_of_nil hd] at h
      rw [List.drop_eq_nil_iff, List.length_append] at hd
      simp only at h
      omega
    · rw [string_of_cons hd] at h hbad
      split_ifs at h hbad
      · simp only at h
        omega
      · simp only [ne_eq, forall_const] at h hbad
        omega
  obtain ⟨c, r, hdrop⟩ := drop_append_cons hbody
  have hpieces := stringPieces_append hv hw quote hbody
  have hnew := hdrop w
  rw [← hpieces] at hnew
  rw [string_of_cons (hdrop v), string_of_cons hnew, hpieces]

lemma withheld_head {d : Char} {r : List Char} (h : Withheld (d :: r) v) : d = '\\' ∨ d = '-' := by
  obtain ⟨h, -⟩ | ⟨_, h, -⟩ := h
  · exact .inl (List.cons.inj h).1
  · exact .inr (List.cons.inj h).1

lemma head?_append (hw : Neutral w) {c : Char} (hc : c ≠ '/')
    (h : (u ++ v).head? ≠ some c) : (u ++ w).head? ≠ some c := by
  rcases u with _ | ⟨d, u⟩
  · obtain rfl | ⟨r, rfl⟩ := hw
    · simp
    · simpa using hc.symm
  · exact h

lemma numberSize_le_size (cs : List Char) : numberSize cs ≤ (numeric cs).size := by
  simp only [numeric]
  split_ifs <;> simp only <;> omega

lemma numeric_append (hv : v ≠ []) (hw : Neutral w) (h : (numeric (u ++ v)).size ≤ u.length)
    (hname : ¬ Withheld (u.drop (numeric (u ++ v)).size) v) :
    numeric (u ++ w) = numeric (u ++ v) := by
  have hn : numberSize (u ++ v) ≤ u.length := Nat.le_trans (numberSize_le_size _) h
  unfold numeric at h hname ⊢
  simp only [hw.local_numberSize u hn, drop_append_le hn] at h hname ⊢
  by_cases hunit : startsName (u.drop (numberSize (u ++ v)) ++ v)
  · rw [if_pos hunit] at h hname ⊢
    have hle : nameSize (u.drop (numberSize (u ++ v)) ++ v) ≤
        (u.drop (numberSize (u ++ v))).length := by
      rw [List.length_drop]
      simp only at h
      omega
    have hpieces := namePieces_append hv hw hle fun hd =>
      hname (.inl (by rwa [List.drop_drop] at hd))
    rw [if_pos (startsName_append hv hle hunit), nameSize, nameSize, hpieces]
  · rw [if_neg hunit] at h hname ⊢
    by_cases hpercent : (u.drop (numberSize (u ++ v)) ++ v).head? = some '%'
    · rw [if_pos hpercent] at h ⊢
      obtain ⟨c, r, hc⟩ := exists_cons_of_lt (u := u) (n := numberSize (u ++ v)) h
      rw [hc] at hunit hpercent ⊢
      obtain rfl : c = '%' := by simpa using hpercent
      have hfree : ¬ Withheld ('%' :: r) v := fun hd => by simpa using withheld_head hd
      rw [if_neg (mt (startsName_of_neutral hv hw hfree) hunit)]
      exact if_pos rfl
    · rw [if_neg hpercent] at hname ⊢
      rw [if_neg (mt (startsName_of_neutral hv hw hname) hunit),
        if_neg (head?_append hw (by decide) hpercent)]

/-! ### Urls -/

lemma badUrl_append (hv : v ≠ []) (hw : Neutral w) {n : ℕ}
    (h : (badUrl n (u ++ v)).size ≤ n + u.length) : badUrl n (u ++ w) = badUrl n (u ++ v) := by
  have hlength := List.length_pos_of_ne_nil hv
  have hbody : extent (remnantPieces (u ++ v)) < u.length := by
    simp only [badUrl, List.length_drop, List.length_append] at h
    omega
  simp only [badUrl, remnantPieces_append hv hw hbody, List.length_drop, List.length_append]
  congr 1
  omega

lemma extent_remnant_pos {c : Char} (hc : c ≠ ')') (r : List Char) :
    0 < extent (remnantPieces (c :: r)) := by
  obtain ⟨p, hp⟩ : ∃ p, remnantPiece? (c :: r) = some p :=
    Option.ne_none_iff_exists'.mp (mt (remnantPiece?_eq_none_iff c r).mp hc)
  have hpos := (remnantPiece?_advances hp).1
  rw [remnantPieces, pieces, units_cons _ _ hp, extent]
  omega

/-- A backslash that escapes nothing is thrown away, and the newline behind it too. -/
lemma extent_remnant_newline (r : List Char) :
    2 ≤ extent (remnantPieces ('\\' :: '\n' :: r)) := by
  have hp : remnantPiece? ('\\' :: '\n' :: r) = some ⟨some '\\', 1⟩ := rfl
  have hpos := extent_remnant_pos (c := '\n') (by decide) r
  rw [remnantPieces] at hpos
  rw [remnantPieces, pieces, units_cons _ _ hp, extent]
  exact Nat.add_le_add_left hpos 1

/-- How far a url goes before its end shows. -/
def urlSize (cs : List Char) : ℕ :=
  extent (urlPieces cs) + blankSize (cs.drop (extent (urlPieces cs)))

lemma url_of_nil {n : ℕ} {cs : List Char} (h : cs.drop (urlSize cs) = []) :
    url n cs = ⟨.url, n + urlSize cs, some .unterminatedUrl⟩ := by
  unfold urlSize at h ⊢
  simp only [url, h]

lemma url_of_cons {n : ℕ} {c : Char} {cs r : List Char} (h : cs.drop (urlSize cs) = c :: r) :
    url n cs = if c = ')' then ⟨.url, n + urlSize cs + 1, none⟩
      else badUrl (n + urlSize cs) (c :: r) := by
  unfold urlSize at h ⊢
  simp only [url, h]

lemma exists_newline (h : Dangling u v) : ∃ r, u = ['\\'] ∧ v = '\n' :: r := by
  obtain ⟨rfl, hnewline⟩ := h
  rcases v with _ | ⟨d, r⟩
  · cases hnewline
  · exact ⟨r, rfl, by simpa using hnewline⟩

lemma urlSize_lt (hv : v ≠ []) {n : ℕ} (h : (url n (u ++ v)).size ≤ n + u.length) :
    urlSize (u ++ v) < u.length := by
  have hlength := List.length_pos_of_ne_nil hv
  rcases hd : (u ++ v).drop (urlSize (u ++ v)) with _ | ⟨c, r⟩
  · rw [url_of_nil hd] at h
    rw [List.drop_eq_nil_iff, List.length_append] at hd
    simp only at h
    omega
  · rw [url_of_cons hd] at h
    split_ifs at h with hc
    · simp only at h
      omega
    · have hpos := extent_remnant_pos hc r
      simp only [badUrl] at h
      omega

lemma extent_urlPieces_le (cs : List Char) : extent (urlPieces cs) ≤ urlSize cs :=
  Nat.le_add_right _ _

lemma urlPieces_url (hv : v ≠ []) (hw : Neutral w) {n : ℕ}
    (h : (url n (u ++ v)).size ≤ n + u.length) : urlPieces (u ++ w) = urlPieces (u ++ v) := by
  have hbody := Nat.lt_of_le_of_lt (extent_urlPieces_le _) (urlSize_lt hv h)
  refine urlPieces_append hv hw hbody fun hd => ?_
  -- the newline would be thrown away with the backslash
  obtain ⟨r, hslash, rfl⟩ := exists_newline hd
  have hrest : (u ++ '\n' :: r).drop (extent (urlPieces (u ++ '\n' :: r))) =
      '\\' :: '\n' :: r := by
    rw [drop_append_le (Nat.le_of_lt hbody), hslash, List.singleton_append]
  have hsame : urlSize (u ++ '\n' :: r) = extent (urlPieces (u ++ '\n' :: r)) := by
    rw [urlSize, hrest]
    rfl
  have htwo := extent_remnant_newline r
  rw [url_of_cons (by rw [hsame, hrest]), if_neg (by decide)] at h
  have hone := congrArg List.length hslash
  rw [List.length_drop, List.length_singleton] at hone
  simp only [badUrl, hsame] at h
  omega

/-- What ends in the part as a url is the same for both rests. -/
lemma url_append (hv : v ≠ []) (hw : Neutral w) {n : ℕ}
    (h : (url n (u ++ v)).size ≤ n + u.length) : url n (u ++ w) = url n (u ++ v) := by
  have hsize := urlSize_lt hv h
  have hbody := Nat.lt_of_le_of_lt (extent_urlPieces_le _) hsize
  have hsame : urlSize (u ++ w) = urlSize (u ++ v) := by
    unfold urlSize at hsize ⊢
    rw [urlPieces_url hv hw h, drop_append_le (Nat.le_of_lt hbody),
      drop_append_le (Nat.le_of_lt hbody)]
    rw [drop_append_le (Nat.le_of_lt hbody)] at hsize
    rw [hw.local_blankSize]
    rw [List.length_drop]
    omega
  obtain ⟨c, r, hdrop⟩ := drop_append_cons hsize
  have hnew := hdrop w
  rw [← hsame] at hnew
  rw [url_of_cons (hdrop v), url_of_cons hnew, hsame]
  split_ifs with hc
  · rfl
  · rw [url_of_cons (hdrop v), if_neg hc] at h
    have hcut : u.drop (urlSize (u ++ v)) = c :: r := by
      simpa [drop_append_le (Nat.le_of_lt hsize)] using hdrop []
    have hcount := congrArg List.length hcut
    rw [List.length_drop] at hcount
    refine badUrl_append (u := c :: r) hv hw ?_
    rw [List.cons_append]
    omega

/-! ### Names, hashes and comments -/

/-- What `url(` starts, which is `n` code points long: before a quote a function, else a url. -/
def called (n : ℕ) (r : List Char) : Lexeme :=
  if (r.drop (blankSize r)).head?.any isQuote then ⟨.function, n, none⟩
  else url (n + blankSize r) (r.drop (blankSize r))

lemma named_of_nil {cs : List Char} (h : cs.drop (nameSize cs) = []) :
    named cs = ⟨.ident, nameSize cs, none⟩ := by
  simp only [named, h]

lemma named_of_cons {c : Char} {cs r : List Char} (h : cs.drop (nameSize cs) = c :: r) :
    named cs =
      if c ≠ '(' then ⟨.ident, nameSize cs, none⟩
      else if sameWord (nameText cs) ['u', 'r', 'l'] then called (nameSize cs + 1) r
      else ⟨.function, nameSize cs + 1, none⟩ := by
  simp only [named, h]
  rfl

lemma le_url_size (n : ℕ) (cs : List Char) : n + min 1 cs.length ≤ (url n cs).size := by
  rcases hd : cs.drop (urlSize cs) with _ | ⟨c, r⟩
  · rw [url_of_nil hd]
    rw [List.drop_eq_nil_iff] at hd
    simp only
    omega
  · rw [url_of_cons hd]
    split_ifs with hc
    · simp only
      omega
    · have hpos := extent_remnant_pos hc r
      simp only [badUrl]
      omega

lemma le_called_size (n : ℕ) (r : List Char) : n ≤ (called n r).size := by
  unfold called
  split_ifs
  · exact Nat.le_refl n
  · have hle := le_url_size (n + blankSize r) (r.drop (blankSize r))
    omega

lemma called_of_function {n : ℕ} {r : List Char} (h : (called n r).kind = .function) :
    called n r = ⟨.function, n, none⟩ := by
  unfold called at h ⊢
  split_ifs at h ⊢
  · rfl
  · generalize hcs : r.drop (blankSize r) = cs at h
    rcases hd : cs.drop (urlSize cs) with _ | ⟨c, t⟩
    · rw [url_of_nil hd] at h
      cases h
    · rw [url_of_cons hd] at h
      split_ifs at h
      cases h

lemma nameSize_le_size (cs : List Char) : nameSize cs ≤ (named cs).size := by
  rcases hd : cs.drop (nameSize cs) with _ | ⟨c, r⟩
  · rw [named_of_nil hd]
  · rw [named_of_cons hd]
    split_ifs
    · exact Nat.le_refl _
    · exact Nat.le_of_succ_le (le_called_size _ r)
    · exact Nat.le_succ _

lemma all_isBlank_of_le {r : List Char} (h : r.length ≤ blankSize (r ++ v)) : r.all isBlank := by
  rw [blankSize, List.takeWhile_append] at h
  split_ifs at h with hall
  · have hself : r.takeWhile isBlank = r := (List.takeWhile_prefix _).eq_of_length hall
    rw [List.all_eq_true]
    exact List.takeWhile_eq_self_iff.mp hself
  · have hle := (List.takeWhile_prefix (l := r) isBlank).length_le
    exact absurd (Nat.le_antisymm hle h) hall

lemma called_append (hv : v ≠ []) (hw : Neutral w) {n : ℕ}
    (h : (called n (u ++ v)).size ≤ n + u.length)
    (hblank : (called n (u ++ v)).kind = .function → ¬ u.all isBlank) :
    called n (u ++ w) = called n (u ++ v) := by
  have hlength := List.length_pos_of_ne_nil hv
  -- what is behind the blanks shows inside the part
  have hlt : blankSize (u ++ v) < u.length := by
    by_contra hge
    unfold called at h hblank
    split_ifs at h hblank with hquote
    · exact hblank rfl (all_isBlank_of_le (Nat.le_of_not_lt hge))
    · have hle := le_url_size (n + blankSize (u ++ v)) ((u ++ v).drop (blankSize (u ++ v)))
      rw [List.length_drop, List.length_append] at hle
      omega
  have hsize := hw.local_blankSize u (Nat.le_of_lt hlt)
  obtain ⟨c, r, hc⟩ := exists_cons_of_lt hlt
  unfold called at h ⊢
  rw [hsize, drop_append_le (Nat.le_of_lt hlt)]
  rw [drop_append_le (Nat.le_of_lt hlt)] at h ⊢
  have hhead : ∀ x : List Char, (u.drop (blankSize (u ++ v)) ++ x).head? = some c := by
    intro x
    rw [hc]
    rfl
  rw [hhead] at h ⊢
  rw [hhead]
  split_ifs at h ⊢
  · rfl
  · refine url_append hv hw ?_
    rw [List.length_drop]
    omega

/-- `url(` behind which the part has nothing but blanks: the rest says whether it is a function. -/
def Unread (u v : List Char) : Prop :=
  (named (u ++ v)).kind = .function ∧ sameWord (nameText (u ++ v)) ['u', 'r', 'l'] ∧
    (u.drop (named (u ++ v)).size).all isBlank

lemma namePieces_named (hv : v ≠ []) (hw : Neutral w) (h : (named (u ++ v)).size ≤ u.length)
    (hname : ¬ Withheld (u.drop (named (u ++ v)).size) v) :
    namePieces (u ++ w) = namePieces (u ++ v) := by
  have hn : nameSize (u ++ v) ≤ u.length := Nat.le_trans (nameSize_le_size _) h
  refine namePieces_append hv hw hn fun hd => ?_
  have hdrop : (u ++ v).drop (nameSize (u ++ v)) = '\\' :: v := by
    rw [drop_append_le hn, hd.1, List.singleton_append]
  rw [named_of_cons hdrop, if_pos (by decide)] at hname
  exact hname (.inl hd)

lemma named_append (hv : v ≠ []) (hw : Neutral w) (h : (named (u ++ v)).size ≤ u.length)
    (hname : ¬ Withheld (u.drop (named (u ++ v)).size) v) (hurl : ¬ Unread u v) :
    named (u ++ w) = named (u ++ v) := by
  have hn : nameSize (u ++ v) ≤ u.length := Nat.le_trans (nameSize_le_size _) h
  have hpieces := namePieces_named hv hw h hname
  have hsize : nameSize (u ++ w) = nameSize (u ++ v) := by rw [nameSize, hpieces, nameSize]
  have htext : nameText (u ++ w) = nameText (u ++ v) := by rw [nameText, hpieces, nameText]
  rw [Unread] at hurl
  rcases hc : u.drop (nameSize (u ++ v)) with _ | ⟨c, r⟩
  · -- the name ends with the part
    have hold : (u ++ v).drop (nameSize (u ++ v)) = v := by
      rw [drop_append_le hn, hc, List.nil_append]
    have hnew : (u ++ w).drop (nameSize (u ++ w)) = w := by
      rw [hsize, drop_append_le hn, hc, List.nil_append]
    have hident : named (u ++ v) = ⟨.ident, nameSize (u ++ v), none⟩ := by
      obtain ⟨d, r, rfl⟩ := List.exists_cons_of_ne_nil hv
      have hlast : u.length ≤ nameSize (u ++ d :: r) := List.drop_eq_nil_iff.mp hc
      rw [named_of_cons hold] at h ⊢
      split_ifs at h ⊢
      · rfl
      · have hle := le_called_size (nameSize (u ++ d :: r) + 1) r
        omega
      · simp only at h
        omega
    rw [hident]
    obtain rfl | ⟨r, rfl⟩ := hw
    · rw [named_of_nil hnew, hsize]
    · rw [named_of_cons hnew, if_pos (by decide), hsize]
  · have hdrop : ∀ x : List Char, (u ++ x).drop (nameSize (u ++ v)) = c :: (r ++ x) := by
      intro x
      rw [drop_append_le hn, hc, List.cons_append]
    have hnew := hdrop w
    rw [← hsize] at hnew
    have hrest : u.drop (nameSize (u ++ v) + 1) = r := by
      rw [← List.drop_drop, hc]
      rfl
    have hlength := congrArg List.length hc
    rw [List.length_drop, List.length_cons] at hlength
    rw [named_of_cons hnew, hsize, htext]
    rw [named_of_cons (hdrop v)] at h hurl ⊢
    split_ifs at h hurl ⊢ with hparen hword
    · rfl
    · refine called_append hv hw (by omega) fun hkind hall => ?_
      refine hurl ⟨hkind, hword, ?_⟩
      rw [called_of_function hkind, hrest]
      exact hall
    · rfl

lemma nameSize_eq_zero {cs : List Char} (h : namePiece? cs = none) : nameSize cs = 0 := by
  rw [nameSize, namePieces, pieces, units_of_none _ _ h]
  rfl

lemma hash_append (hv : v ≠ []) (hw : Neutral w) (hpiece : (namePiece? (u ++ v)).isSome)
    (h : nameSize (u ++ v) ≤ u.length) (hname : ¬ Withheld (u.drop (nameSize (u ++ v))) v) :
    (namePiece? (u ++ w)).isSome ∧ hash (u ++ w) = hash (u ++ v) := by
  have hpieces := namePieces_append hv hw h fun hd => hname (.inl hd)
  have hsize : nameSize (u ++ w) = nameSize (u ++ v) := by rw [nameSize, hpieces, nameSize]
  have hpos := nameSize_pos hpiece
  have hfree : ¬ Withheld u v := by
    rintro (hd | ⟨r, rfl, hd⟩)
    · obtain ⟨t, rfl, rfl⟩ := exists_newline hd
      cases hpiece
    · obtain ⟨t, rfl, rfl⟩ := exists_newline hd
      have hone : nameSize (['-', '\\'] ++ '\n' :: t) = 1 := by
        rw [List.cons_append, nameSize_cons (by decide), nameSize_eq_zero rfl]
      rw [hone] at hname
      exact hname (.inl hd)
  have hstart : startsName (u ++ w) = startsName (u ++ v) := by
    rw [Bool.eq_iff_iff]
    exact ⟨startsName_of_neutral hv hw hfree, startsName_append hv h⟩
  refine ⟨?_, by rw [hash, hash, hstart, hsize]⟩
  rw [← Option.ne_none_iff_isSome]
  intro hnone
  rw [nameSize_eq_zero hnone] at hsize
  omega

lemma two_le_comments_size {cs : List Char} (h : ['/', '*'].isPrefixOf cs) :
    2 ≤ (comments cs).size := by
  obtain ⟨r, rfl⟩ := List.isPrefixOf_iff_prefix.mp h
  obtain ⟨a, ha⟩ := exists_comment r
  have htwo := two_le_size_of_comment? ha
  have hrun : commentRun ('/' :: '*' :: r) = a :: _ := units_of_some comment?_advances ha
  change 2 ≤ runSize (commentRun ('/' :: '*' :: r))
  rw [hrun, runSize]
  omega

lemma comments_append (hv : v ≠ []) (hw : Neutral w) (h : (comments (u ++ v)).size ≤ u.length)
    (hend : (comments (u ++ v)).size = u.length → comment? w = none) :
    comments (u ++ w) = comments (u ++ v) := by
  simp only [comments] at h hend ⊢
  rw [commentRun_append hv hw h hend]

end Lexeme

/-! ### Kinds -/

lemma Lexeme.single_size (c : Char) : (single c).size = 1 := by
  unfold single
  split_ifs <;> rfl

lemma Lexeme.string_kind (quote : Char) (r : List Char) :
    (string quote r).kind ∈ [.string, .badString] := by
  rcases hd : r.drop (extent (stringPieces quote r)) with _ | ⟨c, t⟩
  · rw [string_of_nil hd]
    simp
  · rw [string_of_cons hd]
    split_ifs <;> simp

lemma Lexeme.numeric_kind (cs : List Char) :
    (numeric cs).kind ∈ [.dimension, .percentage, .number] := by
  simp only [numeric]
  split_ifs <;> simp

lemma Lexeme.url_kind (n : ℕ) (cs : List Char) : (url n cs).kind ∈ [.url, .badUrl] := by
  rcases hd : cs.drop (urlSize cs) with _ | ⟨c, r⟩
  · rw [url_of_nil hd]
    simp
  · rw [url_of_cons hd]
    split_ifs
    · simp
    · exact List.mem_cons_of_mem _ List.mem_cons_self

lemma Lexeme.named_kind (cs : List Char) :
    (named cs).kind ∈ [.ident, .function, .url, .badUrl] := by
  rcases hd : cs.drop (nameSize cs) with _ | ⟨c, r⟩
  · rw [named_of_nil hd]
    simp
  · rw [named_of_cons hd, called]
    split_ifs
    · simp
    · simp
    · exact List.mem_cons_of_mem _ (List.mem_cons_of_mem _ (url_kind _ _))
    · simp

lemma Lexeme.single_kind (c : Char) : (single c).kind ∈ .delim :: punctuation.map Prod.snd := by
  unfold single
  split_ifs
  · exact List.mem_cons_self
  · cases hk : punctuation.lookup c with
    | none => exact List.mem_cons_self
    | some k =>
      obtain ⟨l₁, l₂, hsplit, -⟩ := List.lookup_eq_some_iff.mp hk
      refine List.mem_cons_of_mem _ (List.mem_map.mpr ⟨(c, k), ?_, rfl⟩)
      rw [hsplit]
      exact List.mem_append_right _ List.mem_cons_self

/-- Where the kinds of lexemes come from that depend on what follows. -/
theorem lex_cases (c : Char) (r : List Char) :
    lex (c :: r) = ⟨.whitespace, blankSize (c :: r), none⟩ ∨ lex (c :: r) = .string c r ∨
      lex (c :: r) = .named (c :: r) ∨
      (['/', '*'].isPrefixOf (c :: r) ∧ lex (c :: r) = .comments (c :: r)) ∨
      (lex (c :: r)).kind ∉ [.whitespace, .badString, .function, .comments] := by
  have hform := lexForm c r
  generalize lex (c :: r) = l at hform ⊢
  cases hform with
  | blanks _ => exact .inl rfl
  | string _ => exact .inr (.inl rfl)
  | numeric _ =>
    have hdisjoint : ∀ k ∈ [TokenKind.dimension, .percentage, .number],
        k ∉ [.whitespace, .badString, .function, .comments] := by decide
    exact .inr (.inr (.inr (.inr (hdisjoint _ (Lexeme.numeric_kind _)))))
  | cdc _ => exact .inr (.inr (.inr (.inr (by decide))))
  | named _ _ => exact .inr (.inr (.inl rfl))
  | mark =>
    refine .inr (.inr (.inr ?_))
    rw [mark]
    split_ifs with hcdo hopen hhash hat
    · exact .inr (by decide)
    · exact .inl ⟨hopen, rfl⟩
    · refine .inr ?_
      unfold Lexeme.hash
      split_ifs <;> simp
    · exact .inr (by simp)
    · have hdisjoint : ∀ k ∈ TokenKind.delim :: Lexeme.punctuation.map Prod.snd,
          k ∉ [.whitespace, .badString, .function, .comments] := by decide
      exact .inr (hdisjoint _ (Lexeme.single_kind c))

/-! ### Lexemes that look past the seam -/

/-- A lexeme `l` at the front of `u ++ v` that may be another one if `w` comes in the place of
`v`. -/
inductive Clings (u v w : List Char) (l : Lexeme) : Prop
  /-- The string has ended because of a newline behind the part. -/
  | string (kind : l.kind = .badString) (size : l.size = u.length)
  /-- The backslash would escape anything but the newline behind the part. -/
  | escape (dangling : Dangling u v)
  /-- The name would go on with such a backslash, or start with it. -/
  | name (withheld : Withheld (u.drop l.size) v)
  /-- Nothing but blanks is left in the part, and a quote follows. -/
  | url (kind : l.kind = .function) (word : sameWord (nameText (u ++ v)) ['u', 'r', 'l'])
    (blank : (u.drop l.size).all isBlank)
  /-- Another comment follows. -/
  | comment (kind : l.kind = .comments) (size : l.size = u.length) (more : (comment? w).isSome)

/-- The part itself keeps a name from starting only as a backslash, or a dash before one. -/
lemma clings_of_withheld {u v w : List Char} (h : Withheld u v) :
    Clings u v w (lex (u ++ v)) := by
  obtain hd | ⟨r, rfl, hd⟩ := h
  · exact .escape hd
  · obtain ⟨t, rfl, rfl⟩ := Lexeme.exists_newline hd
    exact .name (.inl hd)

lemma single_append {c : Char} {r v w : List Char} (hv : v ≠ []) (hw : Neutral w)
    (hname : ¬ Withheld r v) (hhash : ¬ (c = '#' ∧ (namePiece? (r ++ v)).isSome))
    (hat : ¬ (c = '@' ∧ startsName (r ++ v))) :
    ¬ (c = '#' ∧ (namePiece? (r ++ w)).isSome) ∧ ¬ (c = '@' ∧ startsName (r ++ w)) := by
  constructor
  · rintro ⟨rfl, hpiece⟩
    have hnone : namePiece? (r ++ v) = none := by
      rw [← Option.not_isSome_iff_eq_none]
      exact fun hsome => hhash ⟨rfl, hsome⟩
    rw [namePiece?_eq_none_append hv hw (fun hd => hname (.inl hd)) hnone] at hpiece
    cases hpiece
  · rintro ⟨rfl, hstart⟩
    exact hat ⟨rfl, startsName_of_neutral hv hw hname hstart⟩

lemma mark_append {c : Char} {r v w : List Char} (hv : v ≠ []) (hw : Neutral w)
    (h : (mark c (r ++ v)).size ≤ r.length + 1)
    (hfree : ¬ Clings (c :: r) v w (mark c (r ++ v))) : mark c (r ++ w) = mark c (r ++ v) := by
  unfold mark at h hfree ⊢
  by_cases hcdo : ['<', '!', '-', '-'].isPrefixOf (c :: (r ++ v))
  · rw [if_pos hcdo] at h ⊢
    exact if_pos (isPrefixOf_append ['<', '!', '-', '-'] h hcdo)
  rw [if_neg hcdo] at h hfree ⊢
  rw [if_neg (mt (isPrefixOf_of_neutral hw (by decide)) hcdo)]
  by_cases hopen : ['/', '*'].isPrefixOf (c :: (r ++ v))
  · rw [if_pos hopen] at h hfree ⊢
    have htwo := Lexeme.two_le_comments_size hopen
    rw [if_pos (isPrefixOf_append ['/', '*'] (Nat.le_trans htwo h) hopen)]
    refine Lexeme.comments_append (u := c :: r) hv hw h fun hsize => ?_
    rw [← Option.not_isSome_iff_eq_none]
    exact fun hmore => hfree (.comment rfl hsize hmore)
  rw [if_neg hopen] at h hfree ⊢
  rw [if_neg (mt (isPrefixOf_of_neutral hw (by decide)) hopen)]
  by_cases hhash : c = '#' ∧ (namePiece? (r ++ v)).isSome
  · rw [if_pos hhash] at h hfree ⊢
    have hle : nameSize (r ++ v) ≤ r.length := by
      simp only [Lexeme.hash] at h
      omega
    have hkeep : ¬ Withheld (r.drop (nameSize (r ++ v))) v := by
      intro hd
      refine hfree (.name ?_)
      simpa [Lexeme.hash, Nat.add_comm 1] using hd
    obtain ⟨hpiece, hsame⟩ := Lexeme.hash_append hv hw hhash.2 hle hkeep
    rw [if_pos ⟨hhash.1, hpiece⟩, hsame]
  rw [if_neg hhash] at h hfree ⊢
  by_cases hat : c = '@' ∧ startsName (r ++ v)
  · rw [if_pos hat] at h hfree ⊢
    have hle : nameSize (r ++ v) ≤ r.length := by
      simp only at h
      omega
    have hkeep : ¬ Dangling (r.drop (nameSize (r ++ v))) v := by
      intro hd
      refine hfree (.name (.inl ?_))
      simpa [Nat.add_comm 1] using hd
    have hpieces := namePieces_append hv hw hle hkeep
    have hsize : nameSize (r ++ w) = nameSize (r ++ v) := by rw [nameSize, hpieces, nameSize]
    have hfirst : c ≠ '#' := by
      rw [hat.1]
      decide
    rw [if_neg (fun hc => hfirst hc.1), if_pos ⟨hat.1, startsName_append hv hle hat.2⟩, hsize]
  rw [if_neg hat] at hfree ⊢
  have hkeep : ¬ Withheld r v := by
    intro hd
    refine hfree (.name ?_)
    rwa [Lexeme.single_size, List.drop_one, List.tail_cons]
  obtain ⟨hhash', hat'⟩ := single_append hv hw hkeep hhash hat
  rw [if_neg hhash', if_neg hat']

/-- **At a seam**: a lexeme that ends in the front part is the same whatever neutral rest follows,
unless it clings to the rest it has. -/
theorem lex_append {u v w : List Char} (hu : u ≠ []) (hv : v ≠ []) (hw : Neutral w)
    (h : (lex (u ++ v)).size ≤ u.length) (hfree : ¬ Clings u v w (lex (u ++ v))) :
    lex (u ++ w) = lex (u ++ v) := by
  have hstart : ¬ Withheld u v := fun hd => hfree (clings_of_withheld hd)
  obtain ⟨c, r, rfl⟩ := List.exists_cons_of_ne_nil hu
  rw [List.cons_append] at h hfree ⊢
  rw [List.cons_append]
  by_cases hblank : isBlank c
  · rw [lex_of_blank hblank] at h ⊢
    have hsize : blankSize (c :: (r ++ w)) = blankSize (c :: (r ++ v)) :=
      hw.local_blankSize (c :: r) h
    rw [lex_of_blank hblank, hsize]
  by_cases hquote : isQuote c
  · rw [lex_of_quote hblank hquote] at h hfree ⊢
    rw [lex_of_quote hblank hquote]
    rw [List.length_cons, Nat.add_comm] at h
    refine Lexeme.string_append hv hw c h fun hkind hsize => hfree (.string hkind ?_)
    rw [hsize, List.length_cons, Nat.add_comm]
  by_cases hnumber : startsNumber (c :: (r ++ v))
  · rw [lex_of_number hblank hquote hnumber] at h hfree ⊢
    have hsize : numberSize (c :: r ++ v) ≤ (c :: r).length :=
      Nat.le_trans (Lexeme.numberSize_le_size _) h
    have hnew : startsNumber (c :: r ++ w) := startsNumber_append hw hu hsize hnumber
    rw [List.cons_append] at hnew
    rw [lex_of_number hblank hquote hnew]
    exact Lexeme.numeric_append (u := c :: r) hv hw h fun hd => hfree (.name hd)
  have hnumber' : ¬ startsNumber (c :: (r ++ w)) := mt (startsNumber_of_neutral hw hu) hnumber
  by_cases hcdc : ['-', '-', '>'].isPrefixOf (c :: (r ++ v))
  · rw [lex_of_cdc hblank hquote hnumber hcdc] at h ⊢
    exact lex_of_cdc hblank hquote hnumber' (isPrefixOf_append ['-', '-', '>'] h hcdc)
  have hcdc' : ¬ ['-', '-', '>'].isPrefixOf (c :: (r ++ w)) :=
    mt (isPrefixOf_of_neutral hw (by decide)) hcdc
  by_cases hname : startsName (c :: (r ++ v))
  · rw [lex_of_name hblank hquote hnumber hcdc hname] at h hfree ⊢
    have hsize : nameSize (c :: r ++ v) ≤ (c :: r).length :=
      Nat.le_trans (Lexeme.nameSize_le_size _) h
    have hnew : startsName (c :: r ++ w) := startsName_append hv hsize hname
    rw [List.cons_append] at hnew
    rw [lex_of_name hblank hquote hnumber' hcdc' hnew]
    exact Lexeme.named_append (u := c :: r) hv hw h (fun hd => hfree (.name hd))
      fun hd => hfree (.url hd.1 hd.2.1 hd.2.2)
  have hname' : ¬ startsName (c :: (r ++ w)) := mt (startsName_of_neutral hv hw hstart) hname
  rw [lex_of_mark hblank hquote hnumber hcdc hname] at h hfree ⊢
  rw [lex_of_mark hblank hquote hnumber' hcdc' hname']
  exact mark_append hv hw h hfree

end Stylesheet
