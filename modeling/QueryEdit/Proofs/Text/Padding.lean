import Mathlib.Logic.Relation
import QueryEdit.Proofs.Text.Clean

/-!
# Padding

What cleaning drops, said without the scans. A text has a core, which is what stands
between the controls and spaces at its ends (`IsCore`); its clean text is the core
without tabs and line breaks. Characters that cleaning drops may as well be added to a
text (`Pad`): one after the other, they leave its clean text as it is
(`clean_drops_padding`).

* `isCore_iff`: a text has one core, and stripping finds it;
* `cleanChars_eq_strip_filter`: the breaks may be dropped before the ends, since they
  are among the characters that are dropped there;
* `Pad.cleanChars_eq`: one more character of padding is cleaned away;
* `isValid_innerBounds`: the offsets at which a text is cut stand between characters.
-/

namespace QueryEdit.Text

variable {s t m : List Char}

/-! ### The core of a text -/

/-- The part `m` of a text `s` between the longest runs of characters up to U+0020 at both ends. -/
structure IsCore (s m : List Char) : Prop where
  between : ∃ a b, s = a ++ m ++ b ∧ (∀ c ∈ a, c.toNat ≤ 0x20) ∧ ∀ c ∈ b, c.toNat ≤ 0x20
  head : ∀ c ∈ m.head?, 0x20 < c.toNat
  last : ∀ c ∈ m.getLast?, 0x20 < c.toNat

theorem isOuter_iff {c : Char} : isOuter c = true ↔ c.toNat ≤ 0x20 := decide_eq_true_iff

theorem isOuter_eq_false_iff {c : Char} : isOuter c = false ↔ 0x20 < c.toNat := by
  rw [isOuter, decide_eq_false_iff_not, Nat.not_le]

theorem isBreak_iff {c : Char} : isBreak c = true ↔ c ∈ ['\t', '\n', '\r'] := by
  simp [isBreak, or_assoc]

/-- A text has one core, and stripping finds it. -/
theorem isCore_iff : IsCore s m ↔ strip isOuter s = m := by
  constructor
  · rintro ⟨⟨a, b, rfl, ha, hb⟩, h₁, h₂⟩
    rw [strip_append (fun c hc => isOuter_iff.2 (ha c hc)) fun c hc => isOuter_iff.2 (hb c hc)]
    exact strip_of_ends (fun c hc => isOuter_eq_false_iff.2 (h₁ c hc))
      fun c hc => isOuter_eq_false_iff.2 (h₂ c hc)
  · rintro rfl
    obtain ⟨a, b, hs, ha, hb⟩ := exists_strip isOuter s
    exact ⟨⟨a, b, hs, fun c hc => isOuter_iff.1 (ha c hc), fun c hc => isOuter_iff.1 (hb c hc)⟩,
      fun c hc => isOuter_eq_false_iff.1 (head?_strip hc),
      fun c hc => isOuter_eq_false_iff.1 (getLast?_strip hc)⟩

/-! ### Padding -/

/-- The second text has one character more: a tab or line break anywhere, or a character up to
    U+0020 at one of its ends. -/
inductive Pad : List Char → List Char → Prop
  | inside {a b : List Char} {c : Char} : c ∈ ['\t', '\n', '\r'] → Pad (a ++ b) (a ++ c :: b)
  | front {s : List Char} {c : Char} : c.toNat ≤ 0x20 → Pad s (c :: s)
  | back {s : List Char} {c : Char} : c.toNat ≤ 0x20 → Pad s (s ++ [c])

/-- Breaks may be dropped first: those at the ends are outer characters. -/
theorem cleanChars_eq_strip_filter (s : List Char) :
    cleanChars s = strip isOuter (s.filter fun c => !isBreak c) := by
  obtain ⟨a, b, hs, ha, hb⟩ := exists_strip isOuter s
  have hc := isClean_cleanChars s
  calc cleanChars s
    _ = strip isOuter (cleanChars s) := (strip_of_ends hc.head hc.last).symm
    _ = strip isOuter ((a.filter fun c => !isBreak c) ++ cleanChars s ++
          b.filter fun c => !isBreak c) :=
        (strip_append (fun c hc => ha c (List.mem_filter.1 hc).1)
          fun c hc => hb c (List.mem_filter.1 hc).1).symm
    _ = strip isOuter (s.filter fun c => !isBreak c) := by
        conv_rhs => rw [hs]
        rw [List.filter_append, List.filter_append, cleanChars]

/-- One more character of padding is cleaned away. -/
theorem Pad.cleanChars_eq (h : Pad s t) : cleanChars t = cleanChars s := by
  cases h with
  | @inside a b c hc =>
    have hf : (c :: b).filter (fun c => !isBreak c) = b.filter fun c => !isBreak c :=
      List.filter_cons_of_neg (by simp [isBreak_iff.2 hc])
    rw [cleanChars_eq_strip_filter, cleanChars_eq_strip_filter, List.filter_append,
      List.filter_append, hf]
  | @front _ c hc =>
    have hc' : ∀ d ∈ [c], isOuter d = true := by simpa using isOuter_iff.2 hc
    rw [cleanChars, ← List.singleton_append, strip_append_left hc', cleanChars]
  | @back _ c hc =>
    have hc' : ∀ d ∈ [c], isOuter d = true := by simpa using isOuter_iff.2 hc
    rw [cleanChars, strip_append_right hc', cleanChars]

/-- Any padding is cleaned away. -/
theorem cleanChars_eq_of_pads (h : Relation.ReflTransGen Pad s t) :
    cleanChars t = cleanChars s := by
  induction h with
  | refl => rfl
  | tail _ hp ih => rw [hp.cleanChars_eq, ih]

/-! ### Offsets -/

/-- The length in bytes of the beginning of a text is an offset between characters. -/
theorem isValid_utf8Len {s : String} {a : List Char} (h : a <+: s.toList) :
    String.Pos.Raw.IsValid s ⟨String.utf8Len a⟩ := by
  obtain ⟨b, hb⟩ := h
  rw [String.Pos.Raw.isValid_iff_exists_append]
  refine ⟨String.ofList a, String.ofList b, ?_, ?_⟩
  · rw [← String.ofList_append, hb, String.ofList_toList]
  · rw [String.Pos.Raw.ext_iff, String.byteIdx_rawEndPos, String.utf8ByteSize_ofList]

/-- The offsets at which a text is cut stand between characters. -/
theorem isValid_innerBounds (s : String) :
    String.Pos.Raw.IsValid s ⟨(innerBounds (Utf8.encode s.toList)).1⟩ ∧
      String.Pos.Raw.IsValid s ⟨(innerBounds (Utf8.encode s.toList)).2⟩ := by
  rw [innerBounds_encode]
  exact ⟨isValid_utf8Len (List.takeWhile_prefix isOuter),
    isValid_utf8Len (List.rdropWhile_prefix isOuter s.toList)⟩

/-- The clean text is the core without tabs and line breaks. The bytes are cut between characters,
    a clean text is clean, and padding makes no difference. -/
theorem clean_drops_padding (s : String) :
    (∃ m, IsCore s.toList m ∧
      (clean s).toList = m.filter fun c => decide (c ∉ ['\t', '\n', '\r'])) ∧
    (String.Pos.Raw.IsValid s ⟨(innerBounds (Utf8.encode s.toList)).1⟩ ∧
      String.Pos.Raw.IsValid s ⟨(innerBounds (Utf8.encode s.toList)).2⟩) ∧
    clean (clean s) = clean s ∧
    ∀ t : String, Relation.ReflTransGen Pad s.toList t.toList → clean t = clean s := by
  refine ⟨⟨_, isCore_iff.2 rfl, ?_⟩, isValid_innerBounds s, ?_, fun t h => ?_⟩
  · rw [toList_clean, cleanChars]
    refine List.filter_congr fun c _ => ?_
    rw [Bool.eq_iff_iff, Bool.not_eq_true', decide_eq_true_iff, ← isBreak_iff,
      Bool.not_eq_true]
  · rw [← String.toList_inj, toList_clean, toList_clean, (isClean_cleanChars _).cleanChars_eq]
  · rw [← String.toList_inj, toList_clean, toList_clean, cleanChars_eq_of_pads h]

/-- A break inside, a line break behind and a space in front are cleaned away. -/
theorem clean_drops_padding_inside :
    Relation.ReflTransGen Pad "é b".toList " é\t b\n".toList ∧ clean " é\t b\n" = clean "é b" := by
  have h₁ : Pad "é b".toList "é\t b".toList := .inside (a := ['é']) (b := [' ', 'b']) (by decide)
  have h₂ : Pad "é\t b".toList "é\t b\n".toList := .back (c := '\n') (by decide)
  have h₃ : Pad "é\t b\n".toList " é\t b\n".toList := .front (c := ' ') (by decide)
  have h := ((Relation.ReflTransGen.single h₁).tail h₂).tail h₃
  exact ⟨h, (clean_drops_padding "é b").2.2.2 _ h⟩

end QueryEdit.Text
