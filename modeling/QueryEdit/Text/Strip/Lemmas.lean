import Mathlib.Data.List.DropRight
import QueryEdit.Text.Strip

/-!
# What stripping leaves

* `exists_strip`: a text is its stripped part between two runs of `p`;
* `head?_strip`, `getLast?_strip`: the ends of the stripped part are outside `p`;
* `strip_append`, `strip_of_ends`: no other part of the text has these properties.
-/

namespace QueryEdit.Text

section Scan

variable {α : Type} {p : α → Bool} {l l₁ l₂ : List α}

/-- A scan drops nothing from a list that does not begin with `p`. -/
theorem dropWhile_of_head? (h : ∀ x ∈ l.head?, p x = false) : l.dropWhile p = l := by
  cases l with
  | nil => rfl
  | cons x l => exact List.dropWhile_cons_of_neg (Bool.eq_false_iff.1 (h x rfl))

/-- What a scan leaves does not begin with `p`. -/
theorem forall_head?_dropWhile (p : α → Bool) (l : List α) :
    ∀ x ∈ (l.dropWhile p).head?, p x = false := by
  intro x hx
  have h := List.head?_dropWhile_not p l
  rw [Option.mem_def.1 hx] at h
  simpa using h

/-- What a scan from the back leaves does not end with `p`. -/
theorem forall_getLast?_rdropWhile (p : α → Bool) (l : List α) :
    ∀ x ∈ (l.rdropWhile p).getLast?, p x = false := by
  rw [List.rdropWhile, List.getLast?_reverse]
  exact forall_head?_dropWhile p l.reverse

/-- A scan from the back does not reach into `l₁` if `l₁` does not end with `p`. -/
theorem rdropWhile_append_of_getLast? (h : ∀ x ∈ l₁.getLast?, p x = false) :
    (l₁ ++ l₂).rdropWhile p = l₁ ++ l₂.rdropWhile p := by
  have hd : l₁.reverse.dropWhile p = l₁.reverse :=
    dropWhile_of_head? (by rwa [List.head?_reverse])
  rw [List.rdropWhile, List.rdropWhile, List.reverse_append, List.dropWhile_append]
  split_ifs with he
  · rw [List.isEmpty_iff.1 he, hd, List.reverse_reverse, List.reverse_nil, List.append_nil]
  · rw [List.reverse_append, List.reverse_reverse]

end Scan

variable {p : Char → Bool} {s : List Char}

/-- A text is stripped from the front, and then from the back. -/
theorem strip_eq_rdropWhile (p : Char → Bool) (s : List Char) :
    strip p s = (s.dropWhile p).rdropWhile p := rfl

/-- A text is its stripped part between two runs of `p`. -/
theorem exists_strip (p : Char → Bool) (s : List Char) :
    ∃ a b, s = a ++ strip p s ++ b ∧ (∀ c ∈ a, p c = true) ∧ ∀ c ∈ b, p c = true := by
  refine ⟨s.takeWhile p, (s.dropWhile p).rtakeWhile p, ?_, ?_, ?_⟩
  · rw [List.append_assoc, strip_eq_rdropWhile, List.rdropWhile_append_rtakeWhile,
      List.takeWhile_append_dropWhile]
  · exact List.all_eq_true.1 List.all_takeWhile
  · exact fun c hc => List.mem_rtakeWhile_imp hc

/-- The first character left after stripping is outside `p`. -/
theorem head?_strip {c : Char} (h : (strip p s).head? = some c) : p c = false := by
  -- The stripped part begins what is left after stripping the front alone.
  obtain ⟨t, ht⟩ := List.rdropWhile_prefix p (s.dropWhile p)
  refine forall_head?_dropWhile p s c ?_
  rw [← ht, List.head?_append, ← strip_eq_rdropWhile, h]
  rfl

/-- The last character left after stripping is outside `p`. -/
theorem getLast?_strip {c : Char} (h : (strip p s).getLast? = some c) : p c = false :=
  forall_getLast?_rdropWhile p (s.dropWhile p) c h

/-- A run of `p` in front is stripped. -/
theorem strip_append_left {a : List Char} (h : ∀ c ∈ a, p c = true) :
    strip p (a ++ s) = strip p s := by
  rw [strip, List.dropWhile_append_of_pos h, strip]

/-- A run of `p` at the back is stripped. -/
theorem strip_append_right {b : List Char} (h : ∀ c ∈ b, p c = true) :
    strip p (s ++ b) = strip p s := by
  have hb : ∀ c ∈ b.reverse, p c = true := fun c hc => h c (List.mem_reverse.1 hc)
  rw [strip, strip, List.dropWhile_append]
  split
  · rename_i hs
    rw [List.isEmpty_iff.1 hs]
    have hd : (b ++ []).dropWhile p = [] := List.dropWhile_append_of_pos h
    rw [List.append_nil] at hd
    simp [hd]
  · rw [List.reverse_append, List.dropWhile_append_of_pos hb]

/-- Runs of `p` at the ends do not change what is left after stripping. -/
theorem strip_append {a b : List Char} (ha : ∀ c ∈ a, p c = true) (hb : ∀ c ∈ b, p c = true) :
    strip p (a ++ s ++ b) = strip p s := by
  rw [strip_append_right hb, strip_append_left ha]

/-- A text whose ends are outside `p` stays as it is. -/
theorem strip_of_ends (h₁ : ∀ c ∈ s.head?, p c = false) (h₂ : ∀ c ∈ s.getLast?, p c = false) :
    strip p s = s := by
  have hr : s.reverse.dropWhile p = s.reverse := dropWhile_of_head? (by rwa [List.head?_reverse])
  rw [strip, dropWhile_of_head? h₁, hr, List.reverse_reverse]

end QueryEdit.Text
