import Mathlib.Data.List.Induction
import QueryEdit.Text.Blank
import QueryEdit.Text.Decimal
import QueryEdit.Text.Strip.Lemmas

/-!
# What decimals denote

* `Decimal.Digits`: the natural number of one or more digits, by their places;
* `Decimal.Denotes`: the integer of digits that may stand behind a sign;
* `Decimal.Holds`: the integer that a text holds between blanks.

The readers find these numbers, of any size, and no others (`Decimal.digits_iff`,
`Decimal.denotes_iff`, `Decimal.holds_iff`). Those of 64 bits (`Decimal.IsWord`) are the
ones that `readInt64?` gives (`Decimal.readInt64?_trim`), and to each integer one of these
is nearest (`Decimal.clamp`).
-/

namespace QueryEdit.Decimal

/-- One of the ASCII characters `0` to `9` and its number. -/
def Digit (c : Char) (d : Nat) : Prop := d < 10 ∧ c.toNat = '0'.toNat + d

/-- One or more digits and their number, in which a digit counts ten times the one behind it. -/
inductive Digits : List Char → Nat → Prop
  | single {c : Char} {d : Nat} : Digit c d → Digits [c] d
  | append {s : List Char} {c : Char} {n d : Nat} :
      Digits s n → Digit c d → Digits (s ++ [c]) (10 * n + d)

/-- The integer of digits with at most one sign in front. -/
inductive Denotes : List Char → Int → Prop
  | unsigned {s : List Char} {n : Nat} : Digits s n → Denotes s n
  | plus {s : List Char} {n : Nat} : Digits s n → Denotes ('+' :: s) n
  | minus {s : List Char} {n : Nat} : Digits s n → Denotes ('-' :: s) (-n)

/-- A text holds an integer that is denoted between the blanks at its ends. -/
def Holds (v : String) (n : Int) : Prop :=
  ∃ a s b, v.toList = a ++ s ++ b ∧ (∀ c ∈ a ++ b, Text.isBlank c = true) ∧ Denotes s n

/-- The integers of 64 bits. -/
def IsWord (n : Int) : Prop := -0x8000000000000000 ≤ n ∧ n ≤ 0x7FFFFFFFFFFFFFFF

instance : DecidablePred IsWord := fun _ => inferInstanceAs (Decidable (_ ∧ _))

/-- The integer of 64 bits that is nearest to an integer. -/
def clamp (n : Int) : Int := max (-0x8000000000000000) (min n 0x7FFFFFFFFFFFFFFF)

variable {s : List Char} {v : String} {c : Char} {m d : Nat} {n k : Int}

/-! ### Digits -/

/-- The digits are the ten characters with a number. -/
theorem isDigit_iff : c.isDigit = true ↔ ∃ d, Digit c d := by
  have h₀ : '0'.toNat = 48 ∧ '9'.toNat = 57 := ⟨rfl, rfl⟩
  rw [Char.isDigit_iff_toNat]
  constructor
  · exact fun h => ⟨c.toNat - '0'.toNat, by omega, by omega⟩
  · rintro ⟨d, hd, hc⟩
    omega

/-- A digit is as far behind `0` as its number says. -/
theorem Digit.sub_eq (h : Digit c d) : c.toNat - '0'.toNat = d := by
  rw [h.2, Nat.add_sub_cancel_left]

theorem Digits.ne_nil (h : Digits s m) : s ≠ [] := by
  cases h <;> simp

theorem Digits.isDigit (h : Digits s m) : ∀ c ∈ s, c.isDigit = true := by
  induction h with
  | single hc => exact List.forall_mem_singleton.2 (isDigit_iff.2 ⟨_, hc⟩)
  | append _ hc ih =>
    exact List.forall_mem_append.2 ⟨ih, List.forall_mem_singleton.2 (isDigit_iff.2 ⟨_, hc⟩)⟩

/-- Digits are read as the number that they are of. -/
theorem Digits.ofDigitChars_eq (h : Digits s m) : Nat.ofDigitChars 10 s 0 = m := by
  induction h with
  | single hc =>
    rw [Nat.ofDigitChars_cons, Nat.ofDigitChars_nil, hc.sub_eq, Nat.mul_zero, Nat.zero_add]
  | append _ hc ih =>
    rw [Nat.ofDigitChars_append, ih, Nat.ofDigitChars_cons, Nat.ofDigitChars_nil, hc.sub_eq]

/-- Digits have a number. -/
theorem exists_digits (h : s ≠ []) (hs : ∀ c ∈ s, c.isDigit = true) : ∃ n, Digits s n := by
  induction s using List.reverseRecOn with
  | nil => exact absurd rfl h
  | append_singleton s c ih =>
    obtain ⟨d, hc⟩ := isDigit_iff.1 (hs c (by simp))
    by_cases hnil : s = []
    · subst hnil
      exact ⟨d, .single hc⟩
    · obtain ⟨n, hn⟩ := ih hnil fun c hc => hs c (List.mem_append_left _ hc)
      exact ⟨10 * n + d, .append hn hc⟩

/-- The number of digits is the one that is read. -/
theorem digits_iff : Digits s m ↔ readNat? s = some m := by
  rw [readNat?, Option.ite_none_right_eq_some, List.all_eq_true, Option.some.injEq]
  constructor
  · exact fun h => ⟨⟨h.ne_nil, h.isDigit⟩, h.ofDigitChars_eq⟩
  · rintro ⟨⟨hne, hs⟩, rfl⟩
    obtain ⟨n, hn⟩ := exists_digits hne hs
    rwa [hn.ofDigitChars_eq]

/-! ### Signs -/

/-- The integer that a text denotes is the one that is read. -/
theorem denotes_iff : Denotes s n ↔ read? s = some n := by
  constructor
  · intro h
    cases h with
    | unsigned h =>
      obtain ⟨c, s, rfl⟩ := List.exists_cons_of_ne_nil h.ne_nil
      rw [read?_of_isDigit (h.isDigit c List.mem_cons_self), digits_iff.1 h, Option.map_some]
    | plus h | minus h => rw [read?, digits_iff.1 h, Option.map_some]
  · intro h
    rw [read?.eq_def] at h
    split at h <;> obtain ⟨m, hm, rfl⟩ := Option.map_eq_some_iff.1 h
    · exact .minus (digits_iff.2 hm)
    · exact .plus (digits_iff.2 hm)
    · exact .unsigned (digits_iff.2 hm)

/-- What denotes an integer begins with a sign or a digit. -/
theorem Denotes.exists_cons (h : Denotes s n) :
    ∃ c r, s = c :: r ∧ (c = '+' ∨ c = '-' ∨ c.isDigit = true) := by
  cases h with
  | unsigned h =>
    obtain ⟨c, r, rfl⟩ := List.exists_cons_of_ne_nil h.ne_nil
    exact ⟨c, r, rfl, .inr (.inr (h.isDigit c List.mem_cons_self))⟩
  | plus h => exact ⟨_, _, rfl, .inl rfl⟩
  | minus h => exact ⟨_, _, rfl, .inr (.inl rfl)⟩

/-- Neither signs nor digits are blank. -/
theorem Denotes.not_isBlank (h : Denotes s n) : ∀ c ∈ s, Text.isBlank c = false := by
  have hd : ∀ {s m}, Digits s m → ∀ c ∈ s, Text.isBlank c = false := by
    intro s m h c hc
    obtain ⟨d, hd, hc⟩ := isDigit_iff.1 (h.isDigit c hc)
    have hten : ∀ d < 10, Text.isBlank (Char.ofNat ('0'.toNat + d)) = false := by decide
    rw [← Char.ofNat_toNat c, hc, hten d hd]
  cases h with
  | unsigned h => exact hd h
  | plus h => exact List.forall_mem_cons.2 ⟨by decide, hd h⟩
  | minus h => exact List.forall_mem_cons.2 ⟨by decide, hd h⟩

/-! ### Blanks around -/

/-- The integer that a text holds is read when the blanks are taken off. -/
theorem holds_iff : Holds v n ↔ read? (Text.trim v.toList) = some n := by
  rw [← denotes_iff, Text.trim]
  constructor
  · rintro ⟨a, s, b, hv, hb, h⟩
    rw [hv, Text.strip_append (fun c hc => hb c (List.mem_append_left b hc))
      fun c hc => hb c (List.mem_append_right a hc), Text.strip_of_ends]
    · exact h
    · exact fun c hc => h.not_isBlank c (List.mem_of_mem_head? hc)
    · exact fun c hc => h.not_isBlank c (List.mem_of_mem_getLast? hc)
  · intro h
    obtain ⟨a, b, hv, ha, hb⟩ := Text.exists_strip Text.isBlank v.toList
    exact ⟨a, _, b, hv, fun c hc => (List.mem_append.1 hc).elim (ha c) (hb c), h⟩

/-- A text holds one integer at most. -/
theorem Holds.unique (h : Holds v n) (h' : Holds v k) : n = k :=
  Option.some.inj ((holds_iff.1 h).symm.trans (holds_iff.1 h'))

/-! ### Integers of 64 bits -/

/-- The bounds of the integers of 64 bits. -/
theorem toInt_bounds : Int64.minValue.toInt = -0x8000000000000000 ∧
    Int64.maxValue.toInt = 0x7FFFFFFFFFFFFFFF :=
  ⟨rfl, rfl⟩

theorem isWord_iff : IsWord n ↔ Int64.minValue.toInt ≤ n ∧ n ≤ Int64.maxValue.toInt := by
  rw [IsWord, toInt_bounds.1, toInt_bounds.2]

theorem isWord_toInt (w : Int64) : IsWord w.toInt :=
  isWord_iff.2 ⟨w.minValue_le_toInt, w.toInt_le⟩

/-- An integer is made one of 64 bits only if it is one. -/
theorem toInt64?_eq_some_iff {w : Int64} : toInt64? n = some w ↔ n = w.toInt := by
  constructor
  · rw [toInt64?, Option.ite_none_right_eq_some, Option.some.injEq]
    rintro ⟨h, rfl⟩
    obtain ⟨h₁, h₂⟩ := isWord_iff.2 h
    exact (Int64.toInt_ofInt_of_le h₁ (Int.lt_of_le_sub_one h₂)).symm
  · rintro rfl
    exact toInt64?_toInt w

/-- The 64-bit integer that a text denotes is the one that is read. -/
theorem readInt64?_eq_some_iff {w : Int64} : readInt64? s = some w ↔ Denotes s w.toInt := by
  rw [readInt64?, Option.bind_eq_some_iff, denotes_iff]
  simp only [toInt64?_eq_some_iff, exists_eq_right]

/-- The 64-bit integer that a text holds is the one that is read. -/
theorem readInt64?_trim {w : Int64} :
    readInt64? (Text.trim v.toList) = some w ↔ Holds v w.toInt := by
  rw [readInt64?_eq_some_iff, holds_iff, denotes_iff]

/-- Nothing is read from a text that holds no 64-bit integer. -/
theorem readInt64?_trim_eq_none_iff :
    readInt64? (Text.trim v.toList) = none ↔ ∀ n, Holds v n → ¬IsWord n := by
  rw [readInt64?, Option.bind_eq_none_iff]
  simp only [holds_iff, isWord_iff, toInt64?, ite_eq_right_iff, reduceCtorEq, imp_false]

/-- An integer within the bounds is not changed. -/
theorem clamp_of_isWord (h : IsWord n) : clamp n = n := by
  rw [IsWord] at h
  rw [clamp]
  omega

theorem isWord_clamp (n : Int) : IsWord (clamp n) := by
  rw [IsWord, clamp]
  omega

/-- To make an integer one of 64 bits is to bring it within their bounds. -/
theorem toInt_ofIntClamp (n : Int) : (Int64.ofIntClamp n).toInt = clamp n := by
  by_cases h : IsWord n
  · rw [Int64.toInt_ofIntClamp (isWord_iff.1 h).1 (isWord_iff.1 h).2, clamp_of_isWord h]
  · obtain ⟨hmin, hmax⟩ := toInt_bounds
    rw [IsWord] at h
    rw [Int64.ofIntClamp, clamp]
    split_ifs <;> omega

/-- The decimal text of an integer is the usual one. -/
theorem ofList_write (n : Int) : String.ofList (write n) = toString n := by
  rw [Int.toString_eq_repr, Int.repr_eq_if, write]
  rcases Int.lt_or_le n 0 with h | h
  · rw [if_pos h, if_neg (Int.not_le.2 h), Nat.repr_eq_ofList_toDigits,
      show (-n).toNat = n.natAbs by omega, ← List.singleton_append, String.ofList_append]
  · rw [if_neg (Int.not_lt.2 h), if_pos h, Nat.repr_eq_ofList_toDigits,
      show n.toNat = n.natAbs by omega]

/-- The decimal text of an integer holds this integer. -/
theorem holds_toString (n : Int) : Holds (toString n) n := by
  refine ⟨[], write n, [], ?_, List.forall_mem_nil _, denotes_iff.2 (read?_write n)⟩
  rw [← ofList_write, String.toList_ofList, List.nil_append, List.append_nil]

end QueryEdit.Decimal
