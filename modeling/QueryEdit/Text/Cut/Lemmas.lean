import Mathlib.Data.List.Basic
import QueryEdit.Text.Cut

/-!
# Cuts by their parts

A cut is determined by how its parts make up the text (`cutFirst_eq_some_iff`,
`cutLast_eq_some_iff`, `exists_of_excise?`), and where there is nothing to cut at, the
text stays whole (`cutFirst_eq_none_iff`, `cutLast_eq_none_iff`, `excise?_eq_none_iff`).
-/

namespace QueryEdit.Text

variable {d : Char} {s a b t r : List Char}

/-! ### At a delimiter -/

/-- The text up to the first `d` is cut off. -/
theorem cutFirst_append (h : d ∉ a) : cutFirst d (a ++ d :: b) = (a, some b) := by
  have ha : ∀ c ∈ a, (c != d) = true := fun c hc => bne_iff_ne.2 fun e => h (e ▸ hc)
  simp [cutFirst, List.takeWhile_append_of_pos ha, List.dropWhile_append_of_pos ha]

/-- Without a `d` there is nothing to cut at. -/
theorem cutFirst_of_not_mem (h : d ∉ s) : cutFirst d s = (s, none) := by
  have hs : ∀ c ∈ s, (c != d) = true := fun c hc => bne_iff_ne.2 fun e => h (e ▸ hc)
  have h₁ : (s ++ []).takeWhile (· != d) = s ++ [] := List.takeWhile_append_of_pos hs
  have h₂ : (s ++ []).dropWhile (· != d) = [] := List.dropWhile_append_of_pos hs
  rw [List.append_nil] at h₁ h₂
  rw [cutFirst, h₁, h₂, List.tail?_nil]

/-- A text is cut in two exactly where `d` first occurs. -/
theorem cutFirst_eq_some_iff : cutFirst d s = (a, some b) ↔ s = a ++ d :: b ∧ d ∉ a := by
  refine ⟨fun h => ?_, fun ⟨hs, ha⟩ => hs ▸ cutFirst_append ha⟩
  by_cases hd : d ∈ s
  · obtain ⟨a', b', rfl, ha'⟩ := List.eq_append_cons_of_mem hd
    rw [cutFirst_append ha'] at h
    simp_all
  · simp [cutFirst_of_not_mem hd] at h

/-- A text is not cut exactly if `d` does not occur. -/
theorem cutFirst_eq_none_iff : cutFirst d s = (a, none) ↔ a = s ∧ d ∉ s := by
  refine ⟨fun h => ?_, fun ⟨ha, hd⟩ => ha ▸ cutFirst_of_not_mem (ha ▸ hd)⟩
  by_cases hd : d ∈ s
  · obtain ⟨a', b', rfl, ha'⟩ := List.eq_append_cons_of_mem hd
    simp [cutFirst_append ha'] at h
  · simp_all [cutFirst_of_not_mem hd]

/-- The text behind the last `d` is cut off. -/
theorem cutLast_append (h : d ∉ b) : cutLast d (a ++ d :: b) = (some a, b) := by
  have h' : d ∉ b.reverse := fun hd => h (List.mem_reverse.1 hd)
  simp [cutLast, cutFirst_append h']

/-- Without a `d` there is nothing to cut at. -/
theorem cutLast_of_not_mem (h : d ∉ s) : cutLast d s = (none, s) := by
  have h' : d ∉ s.reverse := fun hd => h (List.mem_reverse.1 hd)
  simp [cutLast, cutFirst_of_not_mem h']

/-- A text is cut in two exactly where `d` last occurs. -/
theorem cutLast_eq_some_iff : cutLast d s = (some a, b) ↔ s = a ++ d :: b ∧ d ∉ b := by
  refine ⟨fun h => ?_, fun ⟨hs, hb⟩ => hs ▸ cutLast_append hb⟩
  by_cases hd : d ∈ s
  · obtain ⟨b', a', hs, hb'⟩ := List.eq_append_cons_of_mem (List.mem_reverse.2 hd)
    have hs' : s = a'.reverse ++ d :: b'.reverse := by simpa using congrArg List.reverse hs
    have hb : d ∉ b'.reverse := fun hm => hb' (List.mem_reverse.1 hm)
    rw [hs', cutLast_append hb] at h
    simp_all
  · simp [cutLast_of_not_mem hd] at h

/-- A text is not cut exactly if `d` does not occur. -/
theorem cutLast_eq_none_iff : cutLast d s = (none, b) ↔ b = s ∧ d ∉ s := by
  refine ⟨fun h => ?_, fun ⟨hb, hd⟩ => hb ▸ cutLast_of_not_mem (hb ▸ hd)⟩
  by_cases hd : d ∈ s
  · obtain ⟨b', a', hs, hb'⟩ := List.eq_append_cons_of_mem (List.mem_reverse.2 hd)
    have hs' : s = a'.reverse ++ d :: b'.reverse := by simpa using congrArg List.reverse hs
    have hb : d ∉ b'.reverse := fun hm => hb' (List.mem_reverse.1 hm)
    simp [hs', cutLast_append hb] at h
  · simp_all [cutLast_of_not_mem hd]

/-! ### At a text -/

/-- What is left is the text around an occurrence of `t`, and no occurrence begins earlier. -/
theorem exists_of_excise? (h : excise? t s = some r) :
    ∃ a b, s = a ++ t ++ b ∧ r = a ++ b ∧ ∀ a' b', s = a' ++ t ++ b' → a.length ≤ a'.length := by
  induction s generalizing r with
  | nil =>
    rw [excise?, List.isPrefixOf?_eq_some_iff_append_eq] at h
    exact ⟨[], r, h.symm, rfl, fun _ _ _ => Nat.zero_le _⟩
  | cons c s ih =>
    rw [excise?] at h
    cases hp : t.isPrefixOf? (c :: s) with
    | some r' =>
      rw [hp, Option.some_or] at h
      rw [List.isPrefixOf?_eq_some_iff_append_eq, Option.some.inj h] at hp
      exact ⟨[], r, hp.symm, rfl, fun _ _ _ => Nat.zero_le _⟩
    | none =>
      rw [hp, Option.none_or, Option.map_eq_some_iff] at h
      obtain ⟨r', hr', rfl⟩ := h
      obtain ⟨a, b, rfl, rfl, ha⟩ := ih hr'
      refine ⟨c :: a, b, rfl, rfl, fun a' b' h' => ?_⟩
      cases a' with
      | nil =>
        rw [List.nil_append] at h'
        rw [List.isPrefixOf?_eq_some_iff_append_eq.2 h'.symm] at hp
        contradiction
      | cons c' a' =>
        simp only [List.cons_append, List.cons.injEq] at h'
        exact Nat.succ_le_succ (ha a' b' h'.2)

/-- Nothing is left exactly if `t` does not occur. -/
theorem excise?_eq_none_iff : excise? t s = none ↔ ∀ a b, s ≠ a ++ t ++ b := by
  induction s with
  | nil =>
    rw [excise?, Option.eq_none_iff_forall_ne_some]
    simp only [ne_eq, List.isPrefixOf?_eq_some_iff_append_eq]
    constructor
    · intro h a b hs
      simp only [List.nil_eq, List.append_eq_nil_iff] at hs
      exact h [] (by simp [hs])
    · exact fun h r hr => h [] r hr.symm
  | cons c s ih =>
    rw [excise?, Option.or_eq_none_iff, Option.map_eq_none_iff, ih,
      Option.eq_none_iff_forall_ne_some]
    simp only [ne_eq, List.isPrefixOf?_eq_some_iff_append_eq]
    constructor
    · rintro ⟨h₁, h₂⟩ a b hs
      cases a with
      | nil => exact h₁ b hs.symm
      | cons e a => exact h₂ a b (List.cons.inj hs).2
    · exact fun h => ⟨fun r hr => h [] r hr.symm, fun a b hs => h (c :: a) b (by simp [hs])⟩

end QueryEdit.Text
