import Mathlib.Tactic.SplitIfs
import QueryEdit.Text.Utf8

/-!
# Reading UTF-8 back

The bytes of a character that is not ASCII are those of a row of the table, and their low
bits put together are its code point (`inTable_of_codeUnits`); and the bytes of every row
are those of a character (`InTable.codeUnits_codePoint`). The machine puts the same bits
together (`decodeFrom_completes`).

So the bytes of a text are read as that text (`decode_encode`), whatever bytes follow
them (`decodeFrom_encode`): the machine is between characters again after the last
byte of each character.
-/

namespace QueryEdit.Utf8

/-! ### The bytes of characters -/

/-- The bytes of a code point, as numbers. -/
def codeUnits (v : Nat) : List Nat :=
  if v ≤ 0x7F then [v]
  else if v ≤ 0x7FF then [v / 64 + 0xC0, v % 64 + 0x80]
  else if v ≤ 0xFFFF then [v / 4096 + 0xE0, v / 64 % 64 + 0x80, v % 64 + 0x80]
  else [v / 262144 + 0xF0, v / 4096 % 64 + 0x80, v / 64 % 64 + 0x80, v % 64 + 0x80]

/-- There are `n` bytes, the first of them from `low` to `high`. -/
def Completes : Nat → Nat → Nat → List Nat → Prop
  | 0, _, _, [] => True
  | n + 1, low, high, b :: t => (low ≤ b ∧ b ≤ high) ∧ Completes n 0x80 0xBF t
  | _, _, _, _ => False

/-- The bytes are those of a row of the table: a lead, and those that follow it. -/
def InTable (b : Nat) (t : List Nat) : Prop :=
  ∃ l ∈ leads, (l.first ≤ b ∧ b ≤ l.last) ∧ Completes l.follow l.low l.high t

/-- The bits of a character begun, and behind them those of the bytes that follow. -/
def addBits (bits : Nat) (t : List Nat) : Nat := t.foldl (fun bits b => bits * 64 + b % 64) bits

/-- The code point in the low bits of a lead and of the bytes that follow it. -/
def codePoint (b : Nat) (t : List Nat) : Nat := addBits (b % (64 >>> t.length)) t

variable {v b n low high : Nat} {t : List Nat}

/-- A character is written as the bytes of its code point. -/
theorem map_toNat_utf8EncodeChar (c : Char) :
    (String.utf8EncodeChar c).map UInt8.toNat = codeUnits c.toNat := by
  have hc : c.val.toNat = c.toNat := rfl
  have hv : c.toNat < 0xD800 ∨ 0xDFFF < c.toNat ∧ c.toNat < 0x110000 := c.valid
  have ho : ∀ n < 256, (UInt8.ofNat n).toNat = n := fun n hn => by
    rw [UInt8.toNat_ofNat', Nat.mod_eq_of_lt hn]
  rw [String.utf8EncodeChar, codeUnits, hc]
  generalize c.toNat = v at hv ⊢
  split_ifs <;>
    simp (disch := omega) only [List.map_cons, List.map_nil, ho, List.cons.injEq, and_true]
  all_goals omega

/-- So many bytes follow a lead as its row says. -/
theorem Completes.length_eq (h : Completes n low high t) : t.length = n := by
  induction n generalizing low high t with
  | zero =>
    cases t with
    | nil => rfl
    | cons b t => exact h.elim
  | succ n ih =>
    cases t with
    | nil => exact h.elim
    | cons b t => rw [List.length_cons, ih h.2]

/-- The bytes of a character that is not ASCII are in the table, and have its code point. -/
theorem inTable_of_codeUnits (hv : v.isValidChar) (h₀ : 0x80 ≤ v) (h : codeUnits v = b :: t) :
    InTable b t ∧ codePoint b t = v := by
  have hv' : v < 0xD800 ∨ 0xDFFF < v ∧ v < 0x110000 := hv
  rw [codeUnits, if_neg (by omega)] at h
  -- Two, three and four bytes: the row of the lead, and then the bits.
  split_ifs at h <;> obtain ⟨rfl, rfl⟩ := List.cons.inj h
  all_goals
    constructor
    · simp only [InTable, leads, Completes, List.mem_cons, List.not_mem_nil, exists_eq_or_imp,
        exists_eq_left, or_false, false_or, and_true, and_false]
      omega
    · simp only [codePoint, addBits, List.foldl_cons, List.foldl_nil, List.length_cons,
        List.length_nil, Nat.reduceAdd, Nat.reduceShiftRight]
      omega

/-- The bytes in the table are those of a code point. -/
theorem InTable.codeUnits_codePoint (h : InTable b t) :
    (codePoint b t).isValidChar ∧ codeUnits (codePoint b t) = b :: t := by
  rw [InTable] at h
  rcases t with _ | ⟨b₁, _ | ⟨b₂, _ | ⟨b₃, _ | ⟨b₄, t⟩⟩⟩⟩ <;>
    simp only [leads, Completes, codePoint, addBits, List.mem_cons, List.not_mem_nil,
      exists_eq_or_imp, exists_eq_left, or_false, false_or, and_true, and_false, List.foldl_cons,
      List.foldl_nil, List.length_cons, List.length_nil, Nat.reduceAdd, Nat.reduceShiftRight]
      at h ⊢
  -- One, two or three bytes follow the lead, and only one row of the code units has as many.
  all_goals
    refine ⟨show _ ∨ _ by omega, ?_⟩
    rw [codeUnits]
    split_ifs <;> simp only [List.cons.injEq, and_true, and_false, reduceCtorEq] <;> omega

/-! ### The machine -/

/-- The rows of the table do not overlap. -/
theorem find?_leads {l : Lead} (hl : l ∈ leads) {b : Nat} (h₁ : l.first ≤ b) (h₂ : b ≤ l.last) :
    (leads.find? fun l => l.first ≤ b && b ≤ l.last) = some l := by
  have hs : leads.Pairwise fun l m => l.last < m.first := by decide
  obtain ⟨s, t, hst⟩ := List.append_of_mem hl
  rw [hst] at hs ⊢
  -- The rows before that of the lead end below it.
  have hnone : (s.find? fun l => l.first ≤ b && b ≤ l.last) = none := by
    refine List.find?_eq_none.2 fun m hm => ?_
    have := (List.pairwise_append.1 hs).2.2 m hm l List.mem_cons_self
    rw [Bool.and_eq_true, decide_eq_true_iff, decide_eq_true_iff]
    omega
  rw [List.find?_append, hnone, Option.none_or, List.find?_cons_of_pos]
  rw [Bool.and_eq_true, decide_eq_true_iff, decide_eq_true_iff]
  exact ⟨h₁, h₂⟩

/-- A lead byte begins a character. -/
theorem start_lead {l : Lead} (hl : l ∈ leads) {b : Nat} (h₁ : l.first ≤ b) (h₂ : b ≤ l.last) :
    start b = ([], some ⟨b % (64 >>> l.follow), l.follow, l.low, l.high⟩) := by
  have hb : ∀ l ∈ leads, ¬l.first < 0x80 := by decide
  rw [start, if_neg (by have := hb l hl; omega), find?_leads hl h₁ h₂]

/-- A byte that completes a character. -/
theorem decodeFrom_last {bits low high : Nat} {b : UInt8} {bs : List UInt8}
    (h₁ : low ≤ b.toNat) (h₂ : b.toNat ≤ high) :
    decodeFrom (some ⟨bits, 1, low, high⟩) (b :: bs) =
      Char.ofNat (bits * 64 + b.toNat % 64) :: decodeFrom none bs := by
  simp [decodeFrom, step, h₁, h₂]

/-- A byte that continues a character. -/
theorem decodeFrom_more {bits n low high : Nat} {b : UInt8} {bs : List UInt8}
    (h₁ : low ≤ b.toNat) (h₂ : b.toNat ≤ high) :
    decodeFrom (some ⟨bits, n + 2, low, high⟩) (b :: bs) =
      decodeFrom (some ⟨bits * 64 + b.toNat % 64, n + 1, 0x80, 0xBF⟩) bs := by
  simp [decodeFrom, step, h₁, h₂]

/-- A byte that begins a character. -/
theorem decodeFrom_lead {l : Lead} (hl : l ∈ leads) {b : UInt8} {bs : List UInt8}
    (h₁ : l.first ≤ b.toNat) (h₂ : b.toNat ≤ l.last) :
    decodeFrom none (b :: bs) =
      decodeFrom (some ⟨b.toNat % (64 >>> l.follow), l.follow, l.low, l.high⟩) bs := by
  simp [decodeFrom, step, start_lead hl h₁ h₂]

/-- Bytes that complete a character begun are read as the character with all the bits. -/
theorem decodeFrom_completes {bits : Nat} {t bs : List UInt8}
    (h : Completes (n + 1) low high (t.map UInt8.toNat)) :
    decodeFrom (some ⟨bits, n + 1, low, high⟩) (t ++ bs) =
      Char.ofNat (addBits bits (t.map UInt8.toNat)) :: decodeFrom none bs := by
  induction n generalizing bits low high t with
  | zero =>
    obtain _ | ⟨b, _ | ⟨b', t⟩⟩ := t
    · exact h.elim
    · exact decodeFrom_last h.1.1 h.1.2
    · exact h.2.elim
  | succ n ih =>
    cases t with
    | nil => exact h.elim
    | cons b t =>
      rw [List.cons_append, decodeFrom_more h.1.1 h.1.2, ih h.2]
      rfl

/-- The bytes of a character are read as that character. -/
theorem decodeFrom_encodeChar (c : Char) (bs : List UInt8) :
    decodeFrom none (String.utf8EncodeChar c ++ bs) = c :: decodeFrom none bs := by
  have hm := map_toNat_utf8EncodeChar c
  obtain ⟨b, t, hb⟩ := List.exists_cons_of_ne_nil (String.utf8EncodeChar_ne_nil (c := c))
  rw [hb] at hm ⊢
  rcases Nat.lt_or_ge c.toNat 0x80 with hc | hc
  · -- A single byte, which is the character.
    rw [codeUnits, if_pos (by omega), List.map_cons, List.cons.injEq, List.map_eq_nil_iff] at hm
    obtain ⟨hbc, rfl⟩ := hm
    simp [decodeFrom, step, start, hbc, hc]
  · -- A lead of the table, and the bytes that follow it.
    have hc' : c.toNat.isValidChar := c.valid
    obtain ⟨⟨l, hl, ⟨h₁, h₂⟩, ht⟩, hv⟩ := inTable_of_codeUnits hc' hc hm.symm
    have hf : ∀ l ∈ leads, 0 < l.follow := by decide
    obtain ⟨n, hn⟩ := Nat.exists_eq_add_one.2 (hf l hl)
    rw [codePoint, ht.length_eq] at hv
    rw [hn] at ht hv
    rw [List.cons_append, decodeFrom_lead hl h₁ h₂, hn, decodeFrom_completes ht, hv,
      Char.ofNat_toNat]

/-- The bytes of a text are read as that text, and the bytes after them as if they stood
    alone. -/
theorem decodeFrom_encode (s : List Char) (bs : List UInt8) :
    decodeFrom none (encode s ++ bs) = s ++ decodeFrom none bs := by
  induction s with
  | nil => rfl
  | cons c s ih =>
    rw [encode, List.flatMap_cons, List.append_assoc, decodeFrom_encodeChar, List.cons_append]
    exact congrArg (c :: ·) ih

/-- The bytes of a text are read as that text. -/
theorem decode_encode (s : List Char) : decode (encode s) = s := by
  have h := decodeFrom_encode s []
  rwa [List.append_nil, decodeFrom, List.append_nil] at h

end QueryEdit.Utf8
