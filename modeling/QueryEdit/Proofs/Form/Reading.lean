import Mathlib.Data.List.Forall2
import QueryEdit.Form.Component.Lemmas
import QueryEdit.Form.Pairs
import QueryEdit.Proofs.Text.Utf8
import QueryEdit.Text.Cut.Lemmas

/-!
# Reading forms

What the pairs of a form are, said without the functions that read them:

* `Component.Reads`: the text of a key or a value. Each `+` stands for a space, and
  each escape for a byte. What looks like an escape but has not two digits is none;
* `Pair.Reads`: the pair of a piece, which is cut at its first `=`;
* `Pairs.Reads`: the pairs of the pieces between `&`, of which the empty ones are
  skipped. Nothing else is skipped, so a first `?` belongs to a key.

All texts are read in this way, and each in one way only (`Component.reads_iff`,
`Pair.reads_iff`, `Pairs.reads_iff`). Pairs are read so from a form without the mark that
may introduce it (`Pairs.reads_ofForm_of_ne`), and never from one with the mark
(`Pairs.not_reads_ofForm_mark`).
-/

namespace QueryEdit

/-! ### Components -/

namespace Component

/-- A hexadecimal digit of either case stands for a number. -/
inductive HexDigit (c : Char) : Nat → Prop
  | decimal {n : Nat} : n < 10 → c.toNat = '0'.toNat + n → HexDigit c n
  | upper {n : Nat} : n < 6 → c.toNat = 'A'.toNat + n → HexDigit c (10 + n)
  | lower {n : Nat} : n < 6 → c.toNat = 'a'.toNat + n → HexDigit c (10 + n)

/-- The text begins with two hexadecimal digits. -/
def BeginsHex (s : List Char) : Prop :=
  ∃ c d r m n, s = c :: d :: r ∧ HexDigit c m ∧ HexDigit d n

/-- The bytes of a text with escapes. A `%` without two digits after it stands for itself, and so
    do all other characters. -/
inductive Unescapes : List Char → List UInt8 → Prop
  | nil : Unescapes [] []
  | escape {c d : Char} {m n : Nat} {s : List Char} {bs : List UInt8} :
      HexDigit c m → HexDigit d n → Unescapes s bs →
      Unescapes ('%' :: c :: d :: s) (UInt8.ofNat (16 * m + n) :: bs)
  | char {c : Char} {s : List Char} {bs : List UInt8} :
      (c = '%' → ¬BeginsHex s) → Unescapes s bs →
      Unescapes (c :: s) (String.utf8EncodeChar c ++ bs)

/-- A `+` stands for a space. -/
def spaced (c : Char) : Char := if c = '+' then ' ' else c

/-- The text of a component: a `+` is a space, then escapes are bytes, and then the bytes are
    read as UTF-8. -/
def Reads (s t : List Char) : Prop :=
  ∃ bs, Unescapes (s.map spaced) bs ∧ Utf8.Reads bs t

variable {c d : Char} {n : Nat} {b : UInt8} {s t : List Char} {bs bs' : List UInt8}

/-- A character has the value of the digit that it is. -/
theorem hexValue?_eq_some_iff : hexValue? c = some n ↔ HexDigit c n := by
  have hle : ∀ c d : Char, c ≤ d ↔ c.toNat ≤ d.toNat := fun _ _ => Iff.rfl
  have h₀ : '0'.toNat = 48 ∧ '9'.toNat = 57 := ⟨rfl, rfl⟩
  have h₁ : 'A'.toNat = 65 ∧ 'F'.toNat = 70 := ⟨rfl, rfl⟩
  have h₂ : 'a'.toNat = 97 ∧ 'f'.toNat = 102 := ⟨rfl, rfl⟩
  simp only [hexValue?, hle]
  constructor
  · intro h
    split_ifs at h <;> rw [Option.some.injEq] at h
    · exact .decimal (by omega) (by omega)
    · obtain ⟨k, rfl⟩ := Nat.exists_eq_add_of_le (show 10 ≤ n by omega)
      exact .upper (by omega) (by omega)
    · obtain ⟨k, rfl⟩ := Nat.exists_eq_add_of_le (show 10 ≤ n by omega)
      exact .lower (by omega) (by omega)
  · rintro (⟨hn, hc⟩ | ⟨hn, hc⟩ | ⟨hn, hc⟩)
    · rw [if_pos (by omega), hc, h₀.1, Nat.add_sub_cancel_left]
    · rw [if_neg (by omega), if_pos (by omega), Option.some.injEq]
      omega
    · rw [if_neg (by omega), if_neg (by omega), if_pos (by omega), Option.some.injEq]
      omega

/-- Two digits have the value of a byte. -/
theorem hexByte?_eq_some_iff :
    hexByte? c d = some b ↔
      ∃ m n, HexDigit c m ∧ HexDigit d n ∧ UInt8.ofNat (16 * m + n) = b := by
  simp only [← hexValue?_eq_some_iff, hexByte?, Option.bind_eq_bind, Option.bind_eq_some_iff,
    Option.pure_def, Option.some.injEq, Nat.mul_comm 16]
  constructor
  · rintro ⟨m, hm, n, hn, hb⟩
    exact ⟨m, n, hm, hn, hb⟩
  · rintro ⟨m, n, hm, hn, hb⟩
    exact ⟨m, hm, n, hn, hb⟩

/-- A space is no digit, and neither is a `+`. -/
theorem hexDigit_spaced_iff : HexDigit (spaced c) n ↔ HexDigit c n := by
  rw [spaced]
  split_ifs with h
  · rw [h, ← hexValue?_eq_some_iff, ← hexValue?_eq_some_iff]
    exact Iff.of_eq (congrArg (· = some n) (by decide))
  · rfl

theorem beginsHex_map_spaced_iff : BeginsHex (s.map spaced) ↔ BeginsHex s := by
  constructor
  · rintro ⟨x, y, r, m, n, hs, hx, hy⟩
    obtain ⟨c, s', rfl, rfl, hs'⟩ := List.map_eq_cons_iff.1 hs
    obtain ⟨d, s'', rfl, rfl, -⟩ := List.map_eq_cons_iff.1 hs'
    exact ⟨c, d, s'', m, n, rfl, hexDigit_spaced_iff.1 hx, hexDigit_spaced_iff.1 hy⟩
  · rintro ⟨c, d, r, m, n, rfl, hc, hd⟩
    exact ⟨_, _, _, m, n, rfl, hexDigit_spaced_iff.2 hc, hexDigit_spaced_iff.2 hd⟩

theorem not_beginsHex (h : hexByte? c d = none) : ¬BeginsHex (c :: d :: s) := by
  rintro ⟨_, _, _, m, n, ⟨⟩, hc, hd⟩
  rw [hexByte?_eq_some_iff.2 ⟨m, n, hc, hd, rfl⟩] at h
  cases h

/-- The bytes of a component are those of its text, with spaces in place of `+`. -/
theorem unescapes_bytes (s : List Char) : Unescapes (s.map spaced) (bytes s) := by
  fun_induction bytes s with
  | case1 c d s b hb ih =>
    obtain ⟨m, n, hc, hd, rfl⟩ := hexByte?_eq_some_iff.1 hb
    exact .escape (hexDigit_spaced_iff.2 hc) (hexDigit_spaced_iff.2 hd) ih
  | case2 c d s hb ih => exact .char (fun _ => mt beginsHex_map_spaced_iff.1 (not_beginsHex hb)) ih
  | case3 s ih => exact .char (fun h => absurd h (by decide)) ih
  | case4 c s h₁ h₂ ih =>
    rw [List.map_cons, spaced, if_neg h₂]
    refine .char (fun hc => mt beginsHex_map_spaced_iff.1 ?_) ih
    rintro ⟨x, y, r, -, -, hs, -⟩
    exact h₁ x y r hc hs
  | case5 => exact .nil

/-- A text has one way to be read as bytes at most. -/
theorem Unescapes.unique (h : Unescapes s bs) (h' : Unescapes s bs') : bs = bs' := by
  induction h generalizing bs' with
  | nil =>
    cases h'
    rfl
  | @escape c d m n s bs hc hd _ ih =>
    cases h' with
    | escape hc' hd' h' =>
      have hb := hexByte?_eq_some_iff.2 ⟨m, n, hc, hd, rfl⟩
      rw [hexByte?_eq_some_iff.2 ⟨_, _, hc', hd', rfl⟩, Option.some.injEq] at hb
      rw [hb, ih h']
    | char hn => exact absurd ⟨c, d, s, m, n, rfl, hc, hd⟩ (hn rfl)
  | @char c s bs hn _ ih =>
    cases h' with
    | @escape x y m n _ _ hx hy => exact absurd ⟨x, y, _, m, n, rfl, hx, hy⟩ (hn rfl)
    | char _ h' => rw [ih h']

/-- A character that stands for itself is read first. -/
theorem decode_cons (h₁ : c ≠ '%') (h₂ : c ≠ '+') : decode (c :: s) = c :: decode s := by
  rw [decode, bytes_cons h₁ h₂, Utf8.decode, Utf8.decodeFrom_encodeChar]
  rfl

/-- A component is read as one text. -/
theorem reads_iff : Reads s t ↔ decode s = t := by
  rw [decode, ← Utf8.reads_iff]
  constructor
  · rintro ⟨bs, hbs, ht⟩
    rwa [← hbs.unique (unescapes_bytes s)]
  · exact fun ht => ⟨bytes s, unescapes_bytes s, ht⟩

end Component

/-! ### Pairs -/

/-- The pair of a piece: the first `=` ends the key, and without one the value is empty. -/
inductive Pair.Reads : List Char → Pair → Prop
  | value {k v : List Char} {key value : String} : '=' ∉ k →
      Component.Reads k key.toList → Component.Reads v value.toList →
      Reads (k ++ '=' :: v) ⟨key, value⟩
  | noValue {k : List Char} {key : String} : '=' ∉ k →
      Component.Reads k key.toList → Reads k ⟨key, ""⟩

/-- The pairs of a form are those of its pieces, without the empty ones. -/
def Pairs.Reads (s : List Char) (ps : Pairs) : Prop :=
  List.Forall₂ Pair.Reads ((s.splitOn '&').filter (· ≠ [])) ps

variable {p : Pair} {ps : Pairs} {s r piece : List Char}

/-- A piece is read as one pair. -/
theorem Pair.reads_iff : Pair.Reads piece p ↔ ofPiece piece = p := by
  constructor
  · intro h
    cases h with
    | value hk hkey hvalue =>
      simp [ofPiece, Text.cutFirst_append hk, Component.reads_iff.1 hkey,
        Component.reads_iff.1 hvalue]
    | noValue hk hkey =>
      have hnil : Component.decode [] = [] := rfl
      simp [ofPiece, Text.cutFirst_of_not_mem hk, Component.reads_iff.1 hkey, hnil]
  · rintro rfl
    have hreads : ∀ k, Component.Reads k (String.ofList (Component.decode k)).toList := fun k => by
      rw [String.toList_ofList, Component.reads_iff]
    rw [ofPiece]
    rcases hcut : Text.cutFirst '=' piece with ⟨k, _ | v⟩
    · obtain ⟨rfl, hk⟩ := Text.cutFirst_eq_none_iff.1 hcut
      exact .noValue hk (hreads k)
    · obtain ⟨rfl, hk⟩ := Text.cutFirst_eq_some_iff.1 hcut
      exact .value hk (hreads k) (hreads v)

namespace Pairs

/-- A form is read as one sequence of pairs. -/
theorem reads_iff : Reads s ps ↔ ((s.splitOn '&').filter (· ≠ [])).map Pair.ofPiece = ps := by
  have hp : Pair.Reads = fun piece p => Pair.ofPiece piece = p :=
    funext₂ fun _ _ => propext Pair.reads_iff
  rw [Reads, hp, ← List.forall₂_map_left_iff (R := Eq), List.forall₂_eq_eq_eq]

/-- A form is read piece by piece. -/
theorem ofForm_eq (s : List Char) :
    ofForm s = (((dropMark s).splitOn '&').filter (· ≠ [])).map Pair.ofPiece := by
  simp only [ofForm, ne_eq, decide_not, ← List.isEmpty_iff, Bool.decide_eq_true]

/-- The pairs of a form are read from it, if it does not begin with the mark. -/
theorem reads_ofForm_of_ne (h : ∀ r, s ≠ '?' :: r) : Reads s (ofForm s) := by
  have hd : dropMark s = s := by
    rw [dropMark.eq_def]
    split
    · exact absurd rfl (h _)
    · rfl
  rw [reads_iff, ofForm_eq, hd]

/-- The pairs of a form with the mark are read from the form behind the mark. -/
theorem reads_ofForm_mark (r : List Char) : Reads r (ofForm ('?' :: r)) := by
  rw [reads_iff, ofForm_eq, dropMark]

/-- The mark belongs to the key of the first pair. -/
theorem ofPiece_mark (piece : List Char) :
    (Pair.ofPiece ('?' :: piece)).key.toList = '?' :: (Pair.ofPiece piece).key.toList := by
  have hcut : (Text.cutFirst '=' ('?' :: piece)).1 = '?' :: (Text.cutFirst '=' piece).1 := by
    rw [Text.cutFirst, List.takeWhile_cons_of_pos (by decide), Text.cutFirst]
  simp only [Pair.ofPiece, String.toList_ofList, hcut]
  exact Component.decode_cons (by decide) (by decide)

/-- The pairs of a form with the mark are not read from it. -/
theorem not_reads_ofForm_mark (r : List Char) : ¬Reads ('?' :: r) (ofForm ('?' :: r)) := by
  rw [reads_iff, ofForm_eq, dropMark, List.splitOn_cons_eq_if_modifyHead, if_neg (by decide)]
  cases hr : r.splitOn '&' with
  | nil => exact absurd hr (List.splitOn_ne_nil '&' r)
  | cons piece pieces =>
    rw [List.modifyHead_cons, List.filter_cons_of_pos (by simp), List.map_cons]
    by_cases hp : piece = []
    · -- The mark alone is a piece that is not empty.
      rw [List.filter_cons_of_neg (by simp [hp])]
      exact fun h => Nat.succ_ne_self _ (congrArg List.length h)
    · rw [List.filter_cons_of_pos (by simp [hp]), List.map_cons]
      intro h
      have hkey := congrArg (fun p => p.key.toList.length) (List.cons.inj h).1
      rw [ofPiece_mark] at hkey
      exact Nat.succ_ne_self _ hkey

end Pairs

end QueryEdit
