import Mathlib.Data.List.DropRight
import Mathlib.Data.String.Basic
import QueryEdit.Text.Clean
import QueryEdit.Text.Strip.Lemmas
import QueryEdit.Text.Utf8.Lemmas

/-!
# Cleaning by bytes and by characters

`clean` looks at bytes and takes two shortcuts, `cleanChars` goes character by
character. They agree (`toList_clean`): the bytes of an outer control, of a space
or of a break are no bytes of any other character (`Marks`), so a scan of the bytes
stops exactly where a scan of the characters does, between two characters
(`Marks.takeWhile_encode`, `Marks.rdropWhile_encode`).

* `isClean_cleanChars`: a clean text has no outer controls and spaces at its ends,
  and no breaks (`IsClean`);
* `IsClean.cleanChars_eq`: such a text stays as it is when it is cleaned;
* `cleanChars_eq_rdropWhile`: of a text whose end alone is not clean, cleaning
  drops the outer characters at the end;
* `cleanChars_append_of_ends`: texts that do not meet in outer characters are cleaned
  by themselves.
-/

namespace QueryEdit.Text

variable {s : List Char}

/-! ### Ends -/

section Ends

variable {α : Type} {P : α → Prop} {l₁ l₂ : List α}

/-- The first element of two lists in turn is that of one of them. -/
theorem forall_head?_append (h₁ : ∀ x ∈ l₁.head?, P x) (h₂ : ∀ x ∈ l₂.head?, P x) :
    ∀ x ∈ (l₁ ++ l₂).head?, P x := by
  intro x hx
  rw [List.head?_append, Option.mem_def, Option.or_eq_some_iff] at hx
  obtain hx | ⟨-, hx⟩ := hx
  · exact h₁ x hx
  · exact h₂ x hx

/-- The last element of two lists in turn is that of one of them. -/
theorem forall_getLast?_append (h₁ : ∀ x ∈ l₁.getLast?, P x) (h₂ : ∀ x ∈ l₂.getLast?, P x) :
    ∀ x ∈ (l₁ ++ l₂).getLast?, P x := by
  intro x hx
  rw [List.getLast?_append, Option.mem_def, Option.or_eq_some_iff] at hx
  obtain hx | ⟨-, hx⟩ := hx
  · exact h₂ x hx
  · exact h₁ x hx

/-- What begins a text begins as the text does. -/
theorem forall_head?_of_prefix (h : l₁ <+: l₂) (h₂ : ∀ x ∈ l₂.head?, P x) :
    ∀ x ∈ l₁.head?, P x := by
  obtain ⟨t, rfl⟩ := h
  intro x hx
  rw [Option.mem_def] at hx
  refine h₂ x ?_
  rw [List.head?_append, hx]
  rfl

/-- What ends a text ends as the text does. -/
theorem forall_getLast?_of_suffix (h : l₁ <:+ l₂) (h₂ : ∀ x ∈ l₂.getLast?, P x) :
    ∀ x ∈ l₁.getLast?, P x := by
  obtain ⟨t, rfl⟩ := h
  intro x hx
  rw [Option.mem_def] at hx
  refine h₂ x ?_
  rw [List.getLast?_append, hx]
  rfl

end Ends

/-! ### Scans -/

section Scan

variable {α : Type} {p : α → Bool} {l l₁ l₂ : List α}

theorem not_mem_of_all {x : α} (h : l.all p = true) (hx : p x = false) : x ∉ l := by
  intro hm
  rw [List.all_eq_true.1 h x hm] at hx
  contradiction

/-- What is scanned up to a delimiter does not hold it. -/
theorem not_mem_takeWhile (d : Char) (s : List Char) : d ∉ s.takeWhile (· != d) :=
  not_mem_of_all List.all_takeWhile (bne_self_eq_false d)

/-- What follows a scan up to a delimiter begins with it. -/
theorem eq_of_mem_head?_dropWhile {d : Char} {s : List Char} :
    ∀ c ∈ (s.dropWhile (· != d)).head?, c = d := by
  intro c hc
  simpa using forall_head?_dropWhile (· != d) s c hc

theorem takeWhile_of_head? (h : ∀ x ∈ l.head?, p x = false) : l.takeWhile p = [] := by
  cases l with
  | nil => rfl
  | cons x l => exact List.takeWhile_cons_of_neg (Bool.eq_false_iff.1 (h x rfl))

/-- A scan ends with `l₁` if what follows does not go on with `p`. -/
theorem takeWhile_append_of_head? (h₁ : ∀ x ∈ l₁, p x = true) (h₂ : ∀ x ∈ l₂.head?, p x = false) :
    (l₁ ++ l₂).takeWhile p = l₁ := by
  rw [List.takeWhile_append_of_pos h₁, takeWhile_of_head? h₂, List.append_nil]

theorem dropWhile_append_of_head? (h₁ : ∀ x ∈ l₁, p x = true) (h₂ : ∀ x ∈ l₂.head?, p x = false) :
    (l₁ ++ l₂).dropWhile p = l₂ := by
  rw [List.dropWhile_append_of_pos h₁, dropWhile_of_head? h₂]

end Scan

/-! ### Classes of bytes -/

theorem encode_append (s t : List Char) : Utf8.encode (s ++ t) = Utf8.encode s ++ Utf8.encode t :=
  List.flatMap_append

/-- The bytes of a text are as many as its offsets count. -/
theorem length_encode (s : List Char) : (Utf8.encode s).length = String.utf8Len s := by
  induction s with
  | nil => rfl
  | cons c s ih =>
    rw [Utf8.encode, List.flatMap_cons, List.length_append, ← Utf8.encode, ih,
      String.length_utf8EncodeChar, String.utf8Len_cons, Nat.add_comm]

/-- The byte of an ASCII character. -/
theorem utf8EncodeChar_of_lt {c : Char} (h : c.toNat < 0x80) :
    String.utf8EncodeChar c = [UInt8.ofNat c.toNat] := by
  rw [String.utf8EncodeChar]
  exact if_pos (Nat.le_of_lt_succ h)

/-- The bytes of other characters are not ASCII. -/
theorem le_of_mem_utf8EncodeChar {c : Char} (h : 0x80 ≤ c.toNat) :
    ∀ b ∈ String.utf8EncodeChar c, 0x80 ≤ b.toNat := by
  intro b hb
  have hm : b.toNat ∈ Utf8.codeUnits c.toNat :=
    Utf8.map_toNat_utf8EncodeChar c ▸ List.mem_map_of_mem hb
  rw [Utf8.codeUnits] at hm
  split_ifs at hm <;> simp only [List.mem_cons, List.not_mem_nil, or_false] at hm <;> omega

/-- The bytes `q` mark the characters `p`: a character of `p` is a single byte of
    `q`, and no other character has a byte of `q`. -/
structure Marks (q : UInt8 → Bool) (p : Char → Bool) : Prop where
  of_mem {c : Char} : p c = true → ∀ b ∈ String.utf8EncodeChar c, q b = true
  of_not_mem {c : Char} : p c = false → ∀ b ∈ String.utf8EncodeChar c, q b = false

/-- A class of ASCII characters is marked by their bytes. -/
theorem Marks.of_ascii {q : UInt8 → Bool} {p : Char → Bool}
    (h : ∀ n < 0x80, q (UInt8.ofNat n) = p (Char.ofNat n))
    (hp : ∀ c, p c = true → c.toNat < 0x80) (hq : ∀ b, q b = true → b.toNat < 0x80) :
    Marks q p := by
  have ha : ∀ c : Char, c.toNat < 0x80 → ∀ b ∈ String.utf8EncodeChar c, q b = p c := by
    intro c hc b hb
    rw [utf8EncodeChar_of_lt hc, List.mem_singleton] at hb
    rw [hb, h _ hc, Char.ofNat_toNat]
  refine ⟨fun {c} hc b hb => ?_, fun {c} hc b hb => ?_⟩
  · rw [ha c (hp c hc) b hb, hc]
  -- A character outside `p` is an ASCII one, or has no ASCII bytes.
  · rcases Nat.lt_or_ge c.toNat 0x80 with h | h
    · rw [ha c h b hb, hc]
    · exact Bool.eq_false_iff.2 fun hb' =>
        absurd (hq b hb') (Nat.not_lt.2 (le_of_mem_utf8EncodeChar h b hb))

/-- The bytes of padding mark its characters. -/
theorem marks_outer : Marks isOuterByte isOuter :=
  .of_ascii (by decide)
    (fun _ hc => Nat.lt_of_le_of_lt (of_decide_eq_true hc) (by decide))
    (fun _ hb => Nat.lt_of_le_of_lt (of_decide_eq_true hb) (by decide))

/-- Breaks are outer characters. -/
theorem isOuter_of_isBreak {c : Char} (h : isBreak c = true) : isOuter c = true := by
  simp only [isBreak, Bool.or_eq_true, beq_iff_eq] at h
  rcases h with (rfl | rfl) | rfl <;> decide

/-- The bytes of line breaks and tabs mark these. -/
theorem marks_break : Marks isBreakByte isBreak := by
  refine .of_ascii (by decide) (fun c hc => ?_) (fun b hb => ?_)
  · exact Nat.lt_of_le_of_lt (of_decide_eq_true (isOuter_of_isBreak hc)) (by decide)
  · simp only [isBreakByte, Bool.or_eq_true, beq_iff_eq] at hb
    rcases hb with (rfl | rfl) | rfl <;> decide

namespace Marks

variable {q : UInt8 → Bool} {p : Char → Bool}

/-- A text has a byte of `q` exactly if it has a character of `p`. -/
theorem any_encode (h : Marks q p) (s : List Char) : (Utf8.encode s).any q = s.any p := by
  rw [Utf8.encode, List.any_flatMap]
  congr 1
  funext c
  cases hc : p c with
  | true =>
    obtain ⟨b, hb⟩ := List.exists_mem_of_ne_nil _ (String.utf8EncodeChar_ne_nil (c := c))
    exact List.any_eq_true.2 ⟨b, hb, h.of_mem hc b hb⟩
  | false => exact List.any_eq_false.2 fun b hb => by simp [h.of_not_mem hc b hb]

theorem of_mem_encode (h : Marks q p) {s : List Char} (hs : ∀ c ∈ s, p c = true) :
    ∀ b ∈ Utf8.encode s, q b = true := by
  intro b hb
  obtain ⟨c, hc, hb⟩ := List.mem_flatMap.1 hb
  exact h.of_mem (hs c hc) b hb

/-- The first byte of a text whose first character is not of `p` is not of `q`. -/
theorem head?_encode (h : Marks q p) {s : List Char} (hs : ∀ c ∈ s.head?, p c = false) :
    ∀ b ∈ (Utf8.encode s).head?, q b = false := by
  cases s with
  | nil => exact fun b hb => absurd hb (Option.not_mem_none b)
  | cons c s =>
    intro b hb
    rw [Utf8.encode, List.flatMap_cons, List.head?_append_of_ne_nil _ String.utf8EncodeChar_ne_nil]
      at hb
    exact h.of_not_mem (hs c rfl) b (List.mem_of_mem_head? hb)

/-- The last byte of a text whose last character is not of `p` is not of `q`. -/
theorem getLast?_encode (h : Marks q p) {s : List Char} (hs : ∀ c ∈ s.getLast?, p c = false) :
    ∀ b ∈ (Utf8.encode s).getLast?, q b = false := by
  rcases List.eq_nil_or_concat s with rfl | ⟨s, c, rfl⟩
  · exact fun b hb => absurd hb (Option.not_mem_none b)
  · intro b hb
    rw [List.concat_eq_append] at hs hb
    rw [Utf8.encode, List.flatMap_append, List.flatMap_singleton,
      List.getLast?_append_of_ne_nil _ String.utf8EncodeChar_ne_nil] at hb
    exact h.of_not_mem (hs c List.getLast?_concat) b (List.mem_of_mem_getLast? hb)

/-- A scan of the bytes from the front stops where a scan of the characters does. -/
theorem takeWhile_encode (h : Marks q p) (s : List Char) :
    (Utf8.encode s).takeWhile q = Utf8.encode (s.takeWhile p) := by
  have hs : Utf8.encode s = Utf8.encode (s.takeWhile p) ++ Utf8.encode (s.dropWhile p) := by
    rw [← encode_append, List.takeWhile_append_dropWhile]
  rw [hs]
  exact takeWhile_append_of_head? (h.of_mem_encode (List.all_eq_true.1 List.all_takeWhile))
    (h.head?_encode (forall_head?_dropWhile p s))

/-- A scan of the bytes from the back stops where a scan of the characters does. -/
theorem rdropWhile_encode (h : Marks q p) (s : List Char) :
    (Utf8.encode s).rdropWhile q = Utf8.encode (s.rdropWhile p) := by
  have hs : Utf8.encode s = Utf8.encode (s.rdropWhile p) ++ Utf8.encode (s.rtakeWhile p) := by
    rw [← encode_append, List.rdropWhile_append_rtakeWhile]
  rw [hs, rdropWhile_append_of_getLast? (h.getLast?_encode (forall_getLast?_rdropWhile p s)),
    List.rdropWhile_eq_nil_iff.2 (h.of_mem_encode fun c hc => List.mem_rtakeWhile_imp hc),
    List.append_nil]

end Marks

/-! ### The text between its outer characters -/

/-- The offsets found in the bytes are those behind the outer characters in front, and before those
    at the back. -/
theorem innerBounds_encode (s : List Char) :
    innerBounds (Utf8.encode s) =
      (String.utf8Len (s.takeWhile isOuter), String.utf8Len (s.rdropWhile isOuter)) := by
  have hl : (Utf8.encode s).length - ((Utf8.encode s).reverse.takeWhile isOuterByte).length =
      ((Utf8.encode s).rdropWhile isOuterByte).length := by
    have h := congrArg List.length
      (List.takeWhile_append_dropWhile (p := isOuterByte) (l := (Utf8.encode s).reverse))
    rw [List.length_append, List.length_reverse] at h
    rw [List.rdropWhile, List.length_reverse]
    omega
  rw [innerBounds, hl, marks_outer.takeWhile_encode, marks_outer.rdropWhile_encode,
    length_encode, length_encode]

/-- The text without padding. -/
theorem toList_inner (s : String) : (inner s).toList = strip isOuter s.toList := by
  obtain ⟨a, b, hs, ha, hb⟩ := exists_strip isOuter s.toList
  have h₁ : ∀ c ∈ (strip isOuter s.toList).head?, isOuter c = false := fun _ => head?_strip
  have h₂ : ∀ c ∈ (strip isOuter s.toList).getLast?, isOuter c = false := fun _ => getLast?_strip
  simp only [inner, innerBounds_encode]
  generalize strip isOuter s.toList = m at hs h₁ h₂ ⊢
  by_cases hm : m = []
  · -- All characters are outer: the scan from the front ends behind the one from the back.
    have ho : ∀ c ∈ s.toList, isOuter c = true := by
      rw [hs, hm, List.append_nil]
      exact fun c hc => (List.mem_append.1 hc).elim (ha c) (hb c)
    rw [List.rdropWhile_eq_nil_iff.2 ho, hm]
    simp [String.Pos.Raw.extract]
  · -- The scan from the front stops before the first character of `m`, that from the back behind
    -- the last.
    have hf : s.toList.takeWhile isOuter = a := by
      rw [hs, List.append_assoc]
      refine takeWhile_append_of_head? ha ?_
      rwa [List.head?_append_of_ne_nil _ hm]
    have hl : s.toList.rdropWhile isOuter = a ++ m := by
      have ham : ∀ c ∈ (a ++ m).getLast?, isOuter c = false := by
        rwa [List.getLast?_append_of_ne_nil _ hm]
      rw [hs, rdropWhile_append_of_getLast? ham, List.rdropWhile_eq_nil_iff.2 hb, List.append_nil]
    have he := String.extract_of_valid a m b
    rw [← hs, String.ofList_toList] at he
    rw [hf, hl, String.utf8Len_append, he, String.toList_ofList]

theorem toList_dropBreaks (s : String) :
    (dropBreaks s).toList = s.toList.filter fun c => !isBreak c := by
  rw [dropBreaks, marks_break.any_encode]
  split_ifs with h
  · rw [String.toList_ofList]
  · rw [List.filter_eq_self.2]
    exact fun c hc => by simpa using fun hb => h (List.any_eq_true.2 ⟨c, hc, hb⟩)

theorem isBreak_eq_false {c : Char} (h : isOuter c = false) : isBreak c = false :=
  Bool.eq_false_iff.2 fun hb => Bool.eq_false_iff.1 h (isOuter_of_isBreak hb)

/-- A class without outer characters, which is seen at the first code points. -/
theorem isOuter_eq_false {p : Char → Bool} (hp : ∀ n ≤ 0x20, p (Char.ofNat n) = false) {c : Char}
    (hc : p c = true) : isOuter c = false := by
  refine decide_eq_false fun hn => ?_
  have := hp c.toNat hn
  rw [Char.ofNat_toNat, hc] at this
  contradiction

/-- Cleaning by bytes and by characters give the same text. -/
theorem toList_clean (s : String) : (clean s).toList = cleanChars s.toList := by
  rw [clean, marks_outer.any_encode]
  split_ifs with h
  · rw [toList_dropBreaks, toList_inner, cleanChars]
  · -- Without outer characters there is nothing to strip and nothing to drop.
    have ho : ∀ c ∈ s.toList, isOuter c = false := fun c hc =>
      Bool.eq_false_iff.2 fun hc' => h (List.any_eq_true.2 ⟨c, hc, hc'⟩)
    rw [cleanChars, strip_of_ends (fun c hc => ho c (List.mem_of_mem_head? hc))
      fun c hc => ho c (List.mem_of_mem_getLast? hc), List.filter_eq_self.2]
    intro c hc
    rw [isBreak_eq_false (ho c hc), Bool.not_false]

/-! ### Clean texts -/

/-- A text without outer characters at its ends and without breaks. -/
structure IsClean (s : List Char) : Prop where
  head : ∀ c ∈ s.head?, isOuter c = false
  last : ∀ c ∈ s.getLast?, isOuter c = false
  breaks : ∀ c ∈ s, isBreak c = false

/-- Dropping the breaks of a text keeps a first character that is not outer. -/
theorem head?_filter_isBreak (h : ∀ c ∈ s.head?, isOuter c = false) :
    ∀ c ∈ (s.filter fun c => !isBreak c).head?, isOuter c = false := by
  cases s with
  | nil => exact h
  | cons d s =>
    have hd : isBreak d = false := isBreak_eq_false (h d rfl)
    rwa [List.filter_cons_of_pos (by rw [hd, Bool.not_false])]

/-- What is cleaned is clean. -/
theorem isClean_cleanChars (s : List Char) : IsClean (cleanChars s) where
  head := head?_filter_isBreak fun _ hc => head?_strip hc
  last := by
    -- The end of a text is the front of its reversal.
    rw [cleanChars, ← List.head?_reverse, ← List.filter_reverse]
    refine head?_filter_isBreak fun c hc => ?_
    rw [List.head?_reverse] at hc
    exact getLast?_strip hc
  breaks c hc := by simpa using (List.mem_filter.1 hc).2

/-- A text without padding in front loses what is at its end. -/
theorem strip_of_head? {p : Char → Bool} (h : ∀ c ∈ s.head?, p c = false) :
    strip p s = s.rdropWhile p := by
  rw [strip, dropWhile_of_head? h, List.rdropWhile]

/-- Of a text whose end alone is not clean, cleaning drops the outer characters at the end. -/
theorem cleanChars_eq_rdropWhile (h₁ : ∀ c ∈ s.head?, isOuter c = false)
    (h₂ : ∀ c ∈ s, isBreak c = false) : cleanChars s = s.rdropWhile isOuter := by
  rw [cleanChars, strip_of_head? h₁]
  refine List.filter_eq_self.2 fun c hc => ?_
  rw [Bool.not_eq_true']
  exact h₂ c ((List.rdropWhile_prefix isOuter s).subset hc)

/-- A clean text stays as it is when it is cleaned. -/
theorem IsClean.cleanChars_eq (h : IsClean s) : cleanChars s = s := by
  rw [cleanChars_eq_rdropWhile h.head h.breaks, List.rdropWhile_eq_self_iff]
  exact fun hs => Bool.eq_false_iff.1 (h.last _ (List.getLast?_eq_some_getLast hs))

/-! ### Parts of a text -/

theorem mem_of_mem_cleanChars {c : Char} (h : c ∈ cleanChars s) : c ∈ s := by
  obtain ⟨a, b, hs, -, -⟩ := exists_strip isOuter s
  rw [hs]
  exact List.mem_append_left b (List.mem_append_right a (List.mem_filter.1 h).1)

/-- Cleaning drops outer characters only. -/
theorem mem_cleanChars {c : Char} (h : c ∈ s) (hc : isOuter c = false) : c ∈ cleanChars s := by
  obtain ⟨a, b, hs, ha, hb⟩ := exists_strip isOuter s
  rw [hs, List.mem_append, List.mem_append] at h
  refine List.mem_filter.2 ⟨?_, by rw [isBreak_eq_false hc, Bool.not_false]⟩
  obtain (h | h) | h := h
  · exact absurd (ha c h) (Bool.eq_false_iff.1 hc)
  · exact h
  · exact absurd (hb c h) (Bool.eq_false_iff.1 hc)

/-- Between a text that does not end with `p` and one that does not begin with `p` nothing is
    stripped. -/
theorem strip_append_of_ends {p : Char → Bool} {t : List Char}
    (hs : ∀ c ∈ s.getLast?, p c = false) (ht : ∀ c ∈ t.head?, p c = false) :
    strip p (s ++ t) = strip p s ++ strip p t := by
  have hd : ∀ c ∈ (s.dropWhile p).getLast?, p c = false :=
    forall_getLast?_of_suffix (List.dropWhile_suffix p) hs
  have hst : (s ++ t).dropWhile p = s.dropWhile p ++ t := by
    rw [List.dropWhile_append]
    split_ifs with he
    · rw [List.isEmpty_iff.1 he, dropWhile_of_head? ht, List.nil_append]
    · rfl
  have hs' : strip p s = s.dropWhile p := by
    have h : (s.dropWhile p ++ []).rdropWhile p = s.dropWhile p ++ [] :=
      rdropWhile_append_of_getLast? hd
    rwa [List.append_nil] at h
  calc strip p (s ++ t)
    _ = (s.dropWhile p ++ t).rdropWhile p := by rw [strip, hst, List.rdropWhile]
    _ = s.dropWhile p ++ t.rdropWhile p := rdropWhile_append_of_getLast? hd
    _ = strip p s ++ strip p t := by rw [hs', strip_of_head? ht]

/-- Texts that do not meet in outer characters are cleaned by themselves. -/
theorem cleanChars_append_of_ends {t : List Char} (hs : ∀ c ∈ s.getLast?, isOuter c = false)
    (ht : ∀ c ∈ t.head?, isOuter c = false) :
    cleanChars (s ++ t) = cleanChars s ++ cleanChars t := by
  rw [cleanChars, strip_append_of_ends hs ht, List.filter_append, cleanChars, cleanChars]

/-- Behind a text that does not end with an outer character, a text without outer characters
    stays as it is. -/
theorem cleanChars_append {t : List Char} (hs : ∀ c ∈ s.getLast?, isOuter c = false)
    (ht : ∀ c ∈ t, isOuter c = false) : cleanChars (s ++ t) = cleanChars s ++ t := by
  have htc : IsClean t :=
    ⟨fun c hc => ht c (List.mem_of_mem_head? hc), fun c hc => ht c (List.mem_of_mem_getLast? hc),
      fun c hc => isBreak_eq_false (ht c hc)⟩
  rw [cleanChars_append_of_ends hs htc.head, htc.cleanChars_eq]

/-- A first character that is not outer stays the first one. -/
theorem head?_cleanChars (h : ∀ c ∈ s.head?, isOuter c = false) :
    (cleanChars s).head? = s.head? := by
  cases s with
  | nil => rfl
  | cons c s =>
    have hc : isOuter c = false := h c rfl
    have hs : ([c] ++ s).rdropWhile isOuter = [c] ++ s.rdropWhile isOuter :=
      rdropWhile_append_of_getLast? (by rintro _ ⟨⟩; exact hc)
    rw [cleanChars, strip_of_head? h, ← List.singleton_append, hs, List.singleton_append,
      List.filter_cons_of_pos (by rw [isBreak_eq_false hc, Bool.not_false])]
    rfl

end QueryEdit.Text
