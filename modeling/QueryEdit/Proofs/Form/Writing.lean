import QueryEdit.Form.Pairs.Lemmas
import QueryEdit.Proofs.Text.Clean
import QueryEdit.Query.Valid
import QueryEdit.Query.Form

/-!
# Writing forms

A text is written byte by byte: its UTF-8 is cut into runs of plain bytes, which stay as they
are, and bytes that are escaped one by one (`Component.Pieces`). However it is cut, the pieces
with `+` in place of the escape of a space make up the component of the text
(`Component.encode_eq_of_pieces`).

So a component holds unreserved characters, `+` and complete escapes only
(`Component.inert_encode`), none of which is a delimiter, and nothing is lost: components are
read back as the texts, and forms as the queries they were written for, with or without the mark
that introduces a query (`Query.encode_inert_lossless`). A query that has lost pairs is read back
without its holes, and equals what is read (`ValidQuery.ofList_toList_beq`).
-/

namespace QueryEdit

namespace Component

/-! ### What may be written -/

/-- The characters that stand for themselves in a component. -/
def Unreserved (c : Char) : Prop :=
  ('a' ≤ c ∧ c ≤ 'z') ∨ ('A' ≤ c ∧ c ≤ 'Z') ∨ ('0' ≤ c ∧ c ≤ '9') ∨ c ∈ ['-', '_', '.', '~']

/-- A hexadecimal digit in upper case. -/
def UpperHex (c : Char) : Prop := ('0' ≤ c ∧ c ≤ '9') ∨ ('A' ≤ c ∧ c ≤ 'F')

/-- A text of unreserved characters, `+` and escapes in upper case. -/
inductive Inert : List Char → Prop
  | nil : Inert []
  | char {c : Char} {s : List Char} : Unreserved c ∨ c = '+' → Inert s → Inert (c :: s)
  | escape {c d : Char} {s : List Char} : UpperHex c → UpperHex d → Inert s →
      Inert ('%' :: c :: d :: s)

variable {s t : List Char} {b : UInt8} {bs : List UInt8} {ps : List (List Char)}

theorem Inert.append (hs : Inert s) (ht : Inert t) : Inert (s ++ t) := by
  induction hs with
  | nil => exact ht
  | char hc _ ih => exact .char hc ih
  | escape hc hd _ ih => exact .escape hc hd ih

/-- Unreserved characters may be written one after the other. -/
theorem inert_of_unreserved (h : ∀ c ∈ s, Unreserved c) : Inert s := by
  induction s with
  | nil => exact .nil
  | cons c s ih =>
    rw [List.forall_mem_cons] at h
    exact .char (.inl h.1) (ih h.2)

/-- An escape may be written. -/
theorem inert_escape (b : UInt8) : Inert (escape b) := by
  have hx : ∀ n < 16, UpperHex (hexDigit n) := by unfold UpperHex; decide
  have := b.toNat_lt
  exact .escape (hx _ (by omega)) (hx _ (by omega)) .nil

theorem isPlain_iff {c : Char} : isPlain c = true ↔ Unreserved c := by
  have hu : c.isUpper = true ↔ 'A' ≤ c ∧ c ≤ 'Z' := decide_eq_true_iff
  have hl : c.isLower = true ↔ 'a' ≤ c ∧ c ≤ 'z' :=
    Bool.and_eq_true_iff.trans (and_congr decide_eq_true_iff decide_eq_true_iff)
  have hd : c.isDigit = true ↔ '0' ≤ c ∧ c ≤ '9' := Char.isDigit_iff_toNat
  change (c.isUpper || c.isLower || c.isDigit || c == '-' || c == '_' || c == '.' || c == '~') =
    true ↔ Unreserved c
  simp [hu, hl, hd, Unreserved, or_assoc, or_left_comm]

theorem Unreserved.toNat_lt {c : Char} (h : Unreserved c) : c.toNat < 0x80 := by
  rcases h with ⟨-, h⟩ | ⟨-, h⟩ | ⟨-, h⟩ | h
  · exact Nat.lt_of_le_of_lt h (by decide)
  · exact Nat.lt_of_le_of_lt h (by decide)
  · exact Nat.lt_of_le_of_lt h (by decide)
  · simp only [List.mem_cons, List.not_mem_nil, or_false] at h
    rcases h with rfl | rfl | rfl | rfl <;> decide

/-! ### Pieces -/

/-- The bytes of plain characters. -/
def isPlainByte (b : UInt8) : Bool := isPlain (Char.ofNat b.toNat)

/-- The pieces in which bytes are percent-encoded: runs of plain bytes as they are, and each
    other byte by itself, as its escape. -/
inductive Pieces : List UInt8 → List (List Char) → Prop
  | nil : Pieces [] []
  | run {r bs : List UInt8} {ps : List (List Char)} : (∀ b ∈ r, isPlainByte b = true) →
      Pieces bs ps → Pieces (r ++ bs) (r.map (fun b => Char.ofNat b.toNat) :: ps)
  | escape {b : UInt8} {bs : List UInt8} {ps : List (List Char)} : isPlainByte b = false →
      Pieces bs ps → Pieces (b :: bs) (escape b :: ps)

/-- A piece as it is written: the escape of a space becomes `+`. -/
def writePiece (p : List Char) : List Char := if p = "%20".toList then ['+'] else p

/-- What is written for a byte. -/
def writeByte (b : UInt8) : List Char :=
  if isPlainByte b then [Char.ofNat b.toNat] else writePiece (escape b)

/-- Bytes are written piece by piece. -/
theorem exists_pieces (bs : List UInt8) : ∃ ps, Pieces bs ps := by
  induction bs with
  | nil => exact ⟨_, .nil⟩
  | cons b bs ih =>
    obtain ⟨ps, h⟩ := ih
    cases hb : isPlainByte b with
    | true => exact ⟨_, .run (r := [b]) (List.forall_mem_singleton.2 hb) h⟩
    | false => exact ⟨_, .escape hb h⟩

/-- A byte is the code point of a character. -/
theorem toNat_ofNat_toNat (b : UInt8) : (Char.ofNat b.toNat).toNat = b.toNat := by
  have hb : b.toNat.isValidChar := .inl (Nat.lt_trans b.toNat_lt (by decide))
  rw [Char.ofNat, dif_pos hb]
  rfl

/-- The bytes of plain characters are in no other character. -/
theorem marks_plain : Text.Marks isPlainByte isPlain := by
  refine .of_ascii (by decide) (fun c hc => (isPlain_iff.1 hc).toNat_lt) fun b hb => ?_
  have h := (isPlain_iff.1 hb).toNat_lt
  rwa [toNat_ofNat_toNat] at h

/-- The byte of a space is in no other character. -/
theorem marks_space : Text.Marks (· == 0x20) (· == ' ') := by
  refine .of_ascii (by decide) (fun c hc => ?_) fun b hb => ?_
  · rw [eq_of_beq hc]
    decide
  · rw [eq_of_beq hb]
    decide

/-- The only escape that becomes `+` is that of a space. -/
theorem escape_eq_iff : escape b = "%20".toList ↔ b = 0x20 := by
  refine ⟨fun h => ?_, fun h => h ▸ rfl⟩
  have hb := bytes_escape b []
  rw [List.append_nil, h] at hb
  exact (List.cons.inj hb).1.symm

/-- A plain byte is written as the character that it is. -/
theorem writeByte_of_isPlainByte (h : isPlainByte b = true) :
    writeByte b = [Char.ofNat b.toNat] :=
  if_pos h

/-- Any other byte is written as its escape. -/
theorem writeByte_of_not_isPlainByte (h : isPlainByte b = false) :
    writeByte b = writePiece (escape b) :=
  if_neg (Bool.eq_false_iff.1 h)

/-- What is written for a character is what is written for its bytes. -/
theorem encodeChar_eq (c : Char) : encodeChar c = (String.utf8EncodeChar c).flatMap writeByte := by
  rw [encodeChar]
  cases hc : isPlain c with
  | true =>
    have hn := (isPlain_iff.1 hc).toNat_lt
    have hu := Text.utf8EncodeChar_of_lt hn
    have hb : isPlainByte (UInt8.ofNat c.toNat) = true :=
      marks_plain.of_mem hc _ (hu ▸ List.mem_singleton_self _)
    rw [if_pos rfl, hu, List.flatMap_singleton, writeByte_of_isPlainByte hb, UInt8.toNat_ofNat',
      Nat.mod_eq_of_lt (by omega), Char.ofNat_toNat]
  | false =>
    rw [if_neg Bool.false_ne_true]
    split_ifs with hs
    · rw [hs]
      rfl
    · refine List.flatMap_congr fun b hb => ?_
      have hne : (b == 0x20) = false := marks_space.of_not_mem (beq_false_of_ne hs) b hb
      rw [writeByte_of_not_isPlainByte (marks_plain.of_not_mem hc b hb), writePiece,
        if_neg (mt escape_eq_iff.1 (ne_of_beq_false hne))]

/-- A text is written byte by byte. -/
theorem encode_eq (s : List Char) : encode s = (Utf8.encode s).flatMap writeByte := by
  rw [encode, Utf8.encode, List.flatMap_assoc]
  exact List.flatMap_congr fun c _ => encodeChar_eq c

/-- A run stays as it is, since it holds no `%`. -/
theorem writePiece_run {r : List UInt8} (hr : ∀ b ∈ r, isPlainByte b = true) :
    writePiece (r.map fun b => Char.ofNat b.toNat) = r.map fun b => Char.ofNat b.toNat := by
  refine if_neg fun h => ?_
  have hm : '%' ∈ r.map fun b => Char.ofNat b.toNat := by
    rw [h]
    decide
  obtain ⟨b, hb, hc⟩ := List.mem_map.1 hm
  have hp : isPlain '%' = true := hc ▸ hr b hb
  exact absurd hp (by decide)

/-- The pieces of bytes are written as the bytes, however they are cut. -/
theorem Pieces.flatMap_eq (h : Pieces bs ps) : ps.flatMap writePiece = bs.flatMap writeByte := by
  induction h with
  | nil => rfl
  | @run r bs ps hr _ ih =>
    have hw : r.flatMap writeByte = r.map fun b => Char.ofNat b.toNat := by
      rw [List.flatMap_congr fun b hb => writeByte_of_isPlainByte (hr b hb), ← List.map_eq_flatMap]
    rw [List.flatMap_cons, List.flatMap_append, ih, hw, writePiece_run hr]
  | @escape b bs ps hb _ ih =>
    rw [List.flatMap_cons, List.flatMap_cons, ih, writeByte_of_not_isPlainByte hb]

/-- A component is what is written for the pieces of the bytes of the text. -/
theorem encode_eq_of_pieces (h : Pieces (Utf8.encode s) ps) : encode s = ps.flatMap writePiece := by
  rw [encode_eq, h.flatMap_eq]

/-- What is written piece by piece may be written. -/
theorem Pieces.inert (h : Pieces bs ps) : Inert (ps.flatMap writePiece) := by
  induction h with
  | nil => exact .nil
  | @run r bs ps hr _ ih =>
    rw [List.flatMap_cons, writePiece_run hr]
    refine .append (inert_of_unreserved fun c hc => ?_) ih
    obtain ⟨b, hb, rfl⟩ := List.mem_map.1 hc
    exact isPlain_iff.1 (hr b hb)
  | @escape b bs ps _ _ ih =>
    rw [List.flatMap_cons, writePiece]
    split_ifs
    · exact .char (.inr rfl) ih
    · exact (inert_escape b).append ih

/-- A component holds no characters but unreserved ones, `+` and escapes. -/
theorem inert_encode (s : List Char) : Inert (encode s) := by
  obtain ⟨ps, h⟩ := exists_pieces (Utf8.encode s)
  rw [encode_eq_of_pieces h]
  exact h.inert

end Component

/-- A query rebuilt from its pairs equals the query, whatever holes it had. -/
theorem ValidQuery.ofList_toList_beq (q : ValidQuery) :
    (Query.ofList q.toList == q.toQuery) = true := by
  refine ((ofList q.toList).beq_eq q).trans ?_
  rw [toList_ofList]
  exact decide_eq_true rfl

namespace Query

/-- The form of a query is read as its pairs. -/
theorem ofForm_toForm (q : Query) : ofForm q.toForm = ofList q.toList := by
  rw [ofForm, toForm, Pairs.ofForm_toForm]

/-- A `?` in front of the form of a query is not read. -/
theorem ofForm_mark_toForm (q : Query) : ofForm ('?' :: q.toForm) = ofList q.toList := by
  rw [ofForm, toForm, Pairs.ofForm_mark_toForm]

/-- Components are inert and give back their texts, and forms give back their queries, with the
    mark that introduces them or without. -/
theorem encode_inert_lossless :
    (∀ t : String, Component.Inert (Component.encode t.toList) ∧
      Component.decode (Component.encode t.toList) = t.toList) ∧
    ∀ ps : Pairs, ∀ s ∈ [(ofList ps).toForm, '?' :: (ofList ps).toForm],
      (ofForm s == ofList ps) = true ∧ (ofForm s).toList = ps := by
  refine ⟨fun t => ⟨Component.inert_encode _, Component.decode_encode _⟩, fun ps s hs => ?_⟩
  have hf : ofForm s = ofList (ofList ps).toList := by
    rcases List.mem_pair.1 hs with rfl | rfl
    · exact ofForm_toForm _
    · exact ofForm_mark_toForm _
  rw [hf]
  refine ⟨(ValidQuery.ofList ps).ofList_toList_beq, ?_⟩
  rw [toList_ofList, toList_ofList]

end Query

end QueryEdit
