import QueryEdit.Form.Component
import QueryEdit.Text.Utf8.Lemmas

/-!
# Reading components back

A text is read back from its component (`decode_encode`), and the characters of a
component are the plain ones, `+` and `%` (`isPlain_of_mem_encode`), so none of
them can be taken for a separator.
-/

namespace QueryEdit.Component

/-- A hexadecimal digit is read back. -/
theorem hexValue?_hexDigit {n : Nat} (h : n < 16) : hexValue? (hexDigit n) = some n := by
  revert n; decide

/-- The two digits of an escape are read as its byte. -/
theorem hexByte?_escape (b : UInt8) :
    hexByte? (hexDigit (b.toNat / 16)) (hexDigit (b.toNat % 16)) = some b := by
  have hb : b.toNat < 256 := b.toNat_lt
  rw [hexByte?, hexValue?_hexDigit (by omega), hexValue?_hexDigit (by omega)]
  have h : b.toNat / 16 * 16 + b.toNat % 16 = b.toNat := by omega
  change some (UInt8.ofNat (b.toNat / 16 * 16 + b.toNat % 16)) = some b
  rw [h, UInt8.ofNat_toNat]

theorem bytes_escape (b : UInt8) (s : List Char) : bytes (escape b ++ s) = b :: bytes s := by
  simp [escape, bytes, hexByte?_escape]

theorem bytes_flatMap_escape (bs : List UInt8) (s : List Char) :
    bytes (bs.flatMap escape ++ s) = bs ++ bytes s := by
  induction bs with
  | nil => rfl
  | cons b bs ih => rw [List.flatMap_cons, List.append_assoc, bytes_escape, ih, List.cons_append]

/-- A character that is neither `%` nor `+` stands for its own bytes. -/
theorem bytes_cons {c : Char} (h₁ : c ≠ '%') (h₂ : c ≠ '+') (s : List Char) :
    bytes (c :: s) = String.utf8EncodeChar c ++ bytes s := by
  rw [bytes.eq_def]
  split <;> simp_all

theorem ne_of_isPlain {c d : Char} (h : isPlain c = true) (hd : isPlain d = false) : c ≠ d := by
  rintro rfl
  simp [h] at hd

/-- What is written for a character stands for its bytes. -/
theorem bytes_encodeChar (c : Char) (s : List Char) :
    bytes (encodeChar c ++ s) = String.utf8EncodeChar c ++ bytes s := by
  rw [encodeChar]
  split
  · rename_i h
    exact bytes_cons (ne_of_isPlain h (by decide)) (ne_of_isPlain h (by decide)) s
  split
  · rename_i h
    rw [h]
    rfl
  · exact bytes_flatMap_escape _ _

/-- The component of a text stands for the bytes of the text. -/
theorem bytes_encode (s : List Char) : bytes (encode s) = Utf8.encode s := by
  induction s with
  | nil => rfl
  | cons c s ih =>
    rw [encode, List.flatMap_cons, bytes_encodeChar, Utf8.encode, List.flatMap_cons]
    exact congrArg _ ih

/-- A text is read back from its component. -/
theorem decode_encode (s : List Char) : decode (encode s) = s := by
  rw [decode, bytes_encode, Utf8.decode_encode]

/-- The characters that occur in components. -/
theorem isPlain_of_mem_encode {c : Char} {s : List Char} (h : c ∈ encode s) :
    isPlain c = true ∨ c = '+' ∨ c = '%' := by
  have hx : ∀ n < 16, isPlain (hexDigit n) = true := by decide
  obtain ⟨d, _, hc⟩ := List.mem_flatMap.1 h
  rw [encodeChar] at hc
  split at hc
  · rename_i hd
    rw [List.mem_singleton.1 hc]
    exact .inl hd
  split at hc
  · exact .inr (.inl (List.mem_singleton.1 hc))
  · obtain ⟨b, _, hb⟩ := List.mem_flatMap.1 hc
    have := b.toNat_lt
    simp only [escape, List.mem_cons, List.not_mem_nil, or_false] at hb
    rcases hb with rfl | rfl | rfl
    · exact .inr (.inr rfl)
    · exact .inl (hx _ (by omega))
    · exact .inl (hx _ (by omega))

end QueryEdit.Component
