import Stylesheet.Component.Dump
import Stylesheet.Proofs.Lookahead

/-!
Literals read back. Behind its opening quote a literal goes on piece by piece, where a backslash
and what it takes stand for one character and any other character for itself, up to a quote that is
no piece. So the text of a literal is found again whatever follows it; and in the line of a leaf the
first quote is the one that its literal starts with.
-/

namespace Stylesheet

open Stylesheet.Text

namespace Text

def named? : Char → Option Char
  | '"' => some '"'
  | '\\' => some '\\'
  | 'n' => some '\n'
  | 'r' => some '\r'
  | 't' => some '\t'
  | '0' => some '\x00'
  | _ => none

/-- The next piece inside a literal. A number stands in braces behind its `u`. -/
def literalPiece? : List Char → Option Piece
  | [] => none
  | c :: r =>
    if c = '"' then none
    else if c = '\\' then
      match r with
      | 'u' :: '\x7b' :: t =>
        let digits := t.takeWhile (· ≠ '\x7d')
        if digits.length < t.length then
          some ⟨some (Char.ofNat (hexValue (digits.filterMap hexDigit?))), digits.length + 4⟩
        else none
      | d :: _ => (named? d).map fun c => ⟨some c, 2⟩
      | [] => none
    else some ⟨some c, 1⟩

/-- Reads a literal: its text, and what stands behind its closing quote. -/
def unquote : List Char → Option (List Char × List Char)
  | '"' :: r =>
    match r.drop (extent (pieces literalPiece? r)) with
    | '"' :: rest => some (spelled (pieces literalPiece? r), rest)
    | _ => none
  | _ => none

lemma notMem_toDigits {c : Char} (hc : ∀ n : ℕ, n.digitChar ≠ c) {b : ℕ} (hb : 1 < b) (n : ℕ) :
    c ∉ Nat.toDigits b n := by
  have hdigit : ∀ k : ℕ, c ∉ [k.digitChar] := fun k h => hc k (List.mem_singleton.mp h).symm
  induction n using Nat.strongRecOn with
  | ind n ih =>
    rw [Nat.toDigits_eq_if hb]
    split_ifs with hn
    · exact hdigit n
    · rw [List.mem_append, not_or]
      exact ⟨ih _ (Nat.div_lt_self (by omega) hb), hdigit _⟩

lemma hexValue_toDigits (n : ℕ) : hexValue ((Nat.toDigits 16 n).filterMap hexDigit?) = n := by
  have hdigit : ∀ k < 16, hexDigit? k.digitChar = some k := by decide
  induction n using Nat.strongRecOn with
  | ind n ih =>
    rw [Nat.toDigits_eq_if (by decide)]
    split_ifs with hn
    · rw [List.filterMap_cons_some (hdigit n hn)]
      exact Nat.zero_add n
    · have hrest := ih (n / 16) (Nat.div_lt_self (by omega) (by decide))
      have hlast := hdigit (n % 16) (Nat.mod_lt n (by decide))
      rw [hexValue] at hrest
      rw [List.filterMap_append, List.filterMap_cons_some hlast, List.filterMap_nil, hexValue,
        List.foldl_append, hrest]
      exact Nat.div_add_mod' n 16

lemma literalPiece?_advances : Advances Piece.size literalPiece? := by
  intro cs p hp
  rcases cs with _ | ⟨c, r⟩
  · cases hp
  simp only [literalPiece?] at hp
  split_ifs at hp
  · split at hp
    · split_ifs at hp with hlength
      cases hp
      simp only [List.length_cons]
      omega
    · obtain ⟨d, -, rfl⟩ := Option.map_eq_some_iff.mp hp
      simp
    · cases hp
  · cases hp
    simp

lemma literalPiece?_number {ds : List Char} (h : '\x7d' ∉ ds) (r : List Char) :
    literalPiece? ('\\' :: 'u' :: '\x7b' :: (ds ++ '\x7d' :: r)) =
      some ⟨some (Char.ofNat (hexValue (ds.filterMap hexDigit?))), ds.length + 4⟩ := by
  have hdigits : ∀ d ∈ ds, decide (d ≠ '\x7d') = true := fun d hd =>
    decide_eq_true (ne_of_mem_of_not_mem hd h)
  have hfront : (ds ++ '\x7d' :: r).takeWhile (· ≠ '\x7d') = ds := by
    rw [List.takeWhile_append_of_pos hdigits]
    simp
  have hlength : ds.length < (ds ++ '\x7d' :: r).length := by
    rw [List.length_append, List.length_cons]
    omega
  simp only [literalPiece?, hfront, hlength, if_true]
  rfl

/-- **Each character** is read back from what is written for it. -/
lemma literalPiece?_literalChar (c : Char) (r : List Char) :
    literalPiece? (literalChar c ++ r) = some ⟨some c, (literalChar c).length⟩ := by
  rcases hname : escapeNames.lookup c with _ | n
  · rcases hcontrol : isControl c with _ | _
    · have hnames : ∀ p ∈ escapeNames, c ≠ p.1 := by
        simpa [List.lookup_eq_none_iff] using hname
      have hquote : c ≠ '"' := hnames ('"', '"') (by decide)
      have hslash : c ≠ '\\' := hnames ('\\', '\\') (by decide)
      have hself : literalChar c = [c] := by simp [literalChar, hname, hcontrol]
      simp [hself, literalPiece?, hquote, hslash]
    · have hnumber : literalChar c =
          '\\' :: 'u' :: '\x7b' :: (Nat.toDigits 16 c.toNat ++ ['\x7d']) := by
        simp [literalChar, hname, hcontrol]
      have hbrace := notMem_toDigits (fun n => Nat.digitChar_ne '\x7d' (by decide))
        (by decide : 1 < 16) c.toNat
      have hpiece := literalPiece?_number hbrace r
      rw [hexValue_toDigits, Char.ofNat_toNat] at hpiece
      simpa [hnumber] using hpiece
  · have hback : ∀ p ∈ escapeNames, named? p.2 = some p.1 ∧ p.2 ≠ 'u' := by decide
    obtain ⟨before, behind, hmem, -⟩ := List.lookup_eq_some_iff.mp hname
    obtain ⟨hn, hu⟩ := hback (c, n) (by simp [hmem])
    have hpair : literalChar c = ['\\', n] := by rw [literalChar, hname]
    simp [hpair, literalPiece?, hn, hu]

lemma pieces_literal (cs rest : List Char) :
    pieces literalPiece? (cs.flatMap literalChar ++ '"' :: rest) =
      cs.map fun c => ⟨some c, (literalChar c).length⟩ := by
  induction cs with
  | nil => exact units_of_none _ _ rfl
  | cons c cs ih =>
    have hfirst := literalPiece?_literalChar c (cs.flatMap literalChar ++ '"' :: rest)
    rw [List.flatMap_cons, List.append_assoc, List.map_cons, ← ih]
    have hunits := units_of_some literalPiece?_advances hfirst
    rw [List.drop_left] at hunits
    exact hunits

/-- **A literal** is read back, and ends where it is closed. -/
theorem unquote_literal (cs rest : List Char) : unquote (literal cs ++ rest) = some (cs, rest) := by
  have hpieces := pieces_literal cs rest
  have hextent : extent (cs.map fun c => ⟨some c, (literalChar c).length⟩) =
      (cs.flatMap literalChar).length := by
    clear hpieces
    induction cs with
    | nil => rfl
    | cons c cs ih => rw [List.map_cons, extent, ih, List.flatMap_cons, List.length_append]
  have hspelled : spelled (cs.map fun c => ⟨some c, (literalChar c).length⟩) = cs := by
    rw [spelled, List.filterMap_map]
    exact List.filterMap_some
  rw [literal, List.cons_append, List.append_assoc, List.singleton_append, unquote, hpieces,
    hextent, List.drop_left, hspelled]
  rfl

end Text

/-! ### Lines -/

lemma ComponentKind.mem_name {k : ComponentKind} {c : Char} (h : c ∈ k.name.toList) :
    c.isUpper ∨ c = '_' := by
  revert c
  rw [List.forall_iff_forall_mem.symm]
  cases k <;> decide

namespace Component

variable {c : Component} {depth : ℕ} {raw : List Char}

/-- What stands in a line in front of the text of a leaf: two blanks for each level, the kind with
the place, and the extra if there is one. -/
def heading (c : Component) (depth : ℕ) : List Char :=
  List.replicate (2 * depth) ' ' ++ c.kind.name.toList ++ '@' :: Nat.toDigits 10 c.location ++
    if c.extra = 0 then [] else " extra=".toList ++ Nat.toDigits 10 c.extra

lemma line_none (c : Component) (depth : ℕ) :
    c.line depth none = c.heading depth ++ ['\n'] := by
  simp only [line, heading, List.append_nil]

lemma line_some (c : Component) (depth : ℕ) (raw : List Char) :
    c.line depth (some raw) = c.heading depth ++ ' ' :: (literal raw ++ ['\n']) := by
  simp only [line, heading, List.append_assoc, List.cons_append]

lemma quote_notMem_heading : '"' ∉ c.heading depth := by
  have hdigits : ∀ n, '"' ∉ Nat.toDigits 10 n :=
    notMem_toDigits (fun n => Nat.digitChar_ne '"' (by decide)) (by decide)
  have hblank : '"' ∉ List.replicate (2 * depth) ' ' := fun h =>
    absurd (List.eq_of_mem_replicate h) (by decide)
  have hname : '"' ∉ c.kind.name.toList := fun h => absurd (ComponentKind.mem_name h) (by decide)
  have hextra : '"' ∉ " extra=".toList := by decide
  unfold heading
  split_ifs
  · simp [hblank, hname, hdigits]
  · simp [hblank, hname, hdigits]

/-- **The text of a leaf** is read back from its line, and nothing but the end of the line stands
behind it. -/
theorem unquote_line (c : Component) (depth : ℕ) (raw : List Char) :
    unquote ((c.line depth (some raw)).dropWhile (· ≠ '"')) = some (raw, ['\n']) := by
  have hheading : ∀ d ∈ c.heading depth, decide (d ≠ '"') = true := fun d hd =>
    decide_eq_true (ne_of_mem_of_not_mem hd quote_notMem_heading)
  rw [line_some, List.dropWhile_append_of_pos hheading]
  exact unquote_literal raw ['\n']

end Component

end Stylesheet
