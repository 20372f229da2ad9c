/-!
# Signed decimals

The integer that a text denotes in base ten: at most one sign, then one or more
ASCII digits (`read?`). Leading zeros are allowed and the magnitude is not
bounded; `readInt64?` keeps the integers of 64 bits. An integer is written with
no leading zeros and with a sign only if it is negative (`write`), and read back
from that text (`read?_write`, `readInt64?_write`).
-/

namespace QueryEdit.Decimal

/-- The natural number that a run of one or more ASCII digits denotes. -/
def readNat? (s : List Char) : Option Nat :=
  if s ≠ [] ∧ s.all Char.isDigit then some (Nat.ofDigitChars 10 s 0) else none

/-- The integer that digits with at most one sign in front denote. -/
def read? : List Char → Option Int
  | '-' :: s => (readNat? s).map fun n : Nat => -(n : Int)
  | '+' :: s => (readNat? s).map fun n : Nat => (n : Int)
  | s => (readNat? s).map fun n : Nat => (n : Int)

/-- The integer as a word of 64 bits, if it is in range. -/
def toInt64? (n : Int) : Option Int64 :=
  if Int64.minValue.toInt ≤ n ∧ n ≤ Int64.maxValue.toInt then some (Int64.ofInt n) else none

/-- The 64-bit integer that a text denotes. -/
def readInt64? (s : List Char) : Option Int64 := (read? s).bind toInt64?

/-- The decimal text of an integer. -/
def write (n : Int) : List Char :=
  if n < 0 then '-' :: Nat.toDigits 10 n.natAbs else Nat.toDigits 10 n.natAbs

theorem readNat?_toDigits (n : Nat) : readNat? (Nat.toDigits 10 n) = some n := by
  have hd : (Nat.toDigits 10 n).all Char.isDigit = true :=
    List.all_eq_true.2 fun c hc => Nat.isDigit_of_mem_toDigits (by omega) (by omega) hc
  have hn : Nat.toDigits 10 n ≠ [] := Nat.toDigits_ne_nil
  rw [readNat?, if_pos ⟨hn, hd⟩, Nat.ofDigitChars_toDigits (by omega) (by omega)]

/-- A text that begins with a digit is read as a natural number. -/
theorem read?_of_isDigit {c : Char} {s : List Char} (h : c.isDigit = true) :
    read? (c :: s) = (readNat? (c :: s)).map fun n : Nat => (n : Int) := by
  have h₁ : c ≠ '-' := by rintro rfl; simp at h
  have h₂ : c ≠ '+' := by rintro rfl; simp at h
  simp [read?, h₁, h₂]

/-- The decimal text of an integer begins with a digit or a minus sign. -/
theorem exists_write_eq_cons (n : Int) :
    ∃ c s, write n = c :: s ∧ (c = '-' ∨ c.isDigit = true) := by
  rw [write]
  split
  · exact ⟨_, _, rfl, .inl rfl⟩
  · cases h : Nat.toDigits 10 n.natAbs with
    | nil => exact absurd h Nat.toDigits_ne_nil
    | cons c s =>
      exact ⟨c, s, rfl, .inr
        (Nat.isDigit_of_mem_toDigits (by omega) (by omega) (h ▸ List.mem_cons_self))⟩

/-- An integer is read back from its decimal text. -/
theorem read?_write (n : Int) : read? (write n) = some n := by
  rw [write]
  split
  · simp only [read?, readNat?_toDigits, Option.map_some, Option.some.injEq]
    omega
  · cases h : Nat.toDigits 10 n.natAbs with
    | nil => exact absurd h Nat.toDigits_ne_nil
    | cons c s =>
      have hc : c.isDigit = true :=
        Nat.isDigit_of_mem_toDigits (by omega) (by omega) (h ▸ List.mem_cons_self)
      rw [read?_of_isDigit hc, ← h, readNat?_toDigits, Option.map_some, Option.some.injEq]
      omega

theorem toInt64?_toInt (n : Int64) : toInt64? n.toInt = some n := by
  rw [toInt64?, if_pos ⟨n.minValue_le_toInt, n.toInt_le⟩, Int64.ofInt_toInt]

/-- A 64-bit integer is read back from its decimal text. -/
theorem readInt64?_write (n : Int64) : readInt64? (write n.toInt) = some n := by
  rw [readInt64?, read?_write, Option.bind_some, toInt64?_toInt]

end QueryEdit.Decimal
