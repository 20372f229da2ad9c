import QueryEdit.Form.Component.Lemmas
import QueryEdit.Form.Pairs
import QueryEdit.Text.Cut.Lemmas

/-!
# Reading forms back

Pairs are read back from their form, with or without the `?` that introduces it
(`ofForm_toForm`, `ofForm_mark_toForm`): pieces are never empty, and hold no `&`
and just the one `=` between key and value. So pairs may also be written behind any
form (`ofForm_append_flatMap`).
-/

namespace QueryEdit

namespace Pair

/-- The characters that occur in pieces. -/
theorem isPlain_of_mem_toPiece {p : Pair} {c : Char} (h : c ∈ p.toPiece) :
    Component.isPlain c = true ∨ c = '+' ∨ c = '%' ∨ c = '=' := by
  rw [toPiece, List.mem_append, List.mem_cons] at h
  rcases h with h | h | h
  · rcases Component.isPlain_of_mem_encode h with h | h | h <;> simp [h]
  · simp [h]
  · rcases Component.isPlain_of_mem_encode h with h | h | h <;> simp [h]

theorem toPiece_ne_nil (p : Pair) : p.toPiece ≠ [] := by simp [toPiece]

/-- A pair is read back from its piece. -/
theorem ofPiece_toPiece (p : Pair) : ofPiece p.toPiece = p := by
  have h : '=' ∉ Component.encode p.key.toList := by
    intro h
    rcases Component.isPlain_of_mem_encode h with h | h | h <;> revert h <;> decide
  simp [ofPiece, toPiece, Text.cutFirst_append h, Component.decode_encode]

end Pair

namespace Pairs

/-- The characters that occur in forms. -/
theorem isPlain_of_mem_toForm {ps : Pairs} {c : Char} (h : c ∈ toForm ps) :
    Component.isPlain c = true ∨ c = '+' ∨ c = '%' ∨ c = '=' ∨ c = '&' := by
  induction ps with
  | nil => simp [toForm] at h
  | cons p ps ih =>
    rcases List.eq_nil_or_concat ps with rfl | ⟨_, _, hps⟩
    · rw [toForm, List.map_cons, List.map_nil, List.intercalate_singleton] at h
      rcases Pair.isPlain_of_mem_toPiece h with h | h | h | h <;> simp [h]
    · rw [toForm, List.map_cons, List.intercalate_cons_of_ne_nil (by simp [hps])] at h
      simp only [List.mem_append, List.mem_singleton] at h
      rcases h with (h | h) | h
      · rcases Pair.isPlain_of_mem_toPiece h with h | h | h | h <;> simp [h]
      · simp [h]
      · exact ih h

theorem dropMark_toForm (ps : Pairs) : dropMark (toForm ps) = toForm ps := by
  cases h : toForm ps with
  | nil => rfl
  | cons c s =>
    have hc : c ≠ '?' := by
      rintro rfl
      have := isPlain_of_mem_toForm (h ▸ List.mem_cons_self : '?' ∈ toForm ps)
      revert this
      decide
    simp [dropMark, hc]

/-- The pieces of a form. -/
theorem splitOn_toForm (ps : Pairs) :
    ((toForm ps).splitOn '&').filter (fun piece => !piece.isEmpty) = ps.map Pair.toPiece := by
  cases ps with
  | nil => rfl
  | cons p ps =>
    have hp : ∀ piece ∈ (p :: ps).map Pair.toPiece, '&' ∉ piece := by
      intro piece hpiece h
      obtain ⟨q, _, rfl⟩ := List.mem_map.1 hpiece
      have := Pair.isPlain_of_mem_toPiece h
      revert this
      decide
    rw [toForm, List.splitOn_intercalate _ hp (by simp), List.filter_eq_self]
    intro piece hpiece
    obtain ⟨q, _, rfl⟩ := List.mem_map.1 hpiece
    simp [Pair.toPiece_ne_nil]

/-- Pairs are read back from their form. -/
theorem ofForm_toForm (ps : Pairs) : ofForm (toForm ps) = ps := by
  rw [ofForm, dropMark_toForm, splitOn_toForm, List.map_map]
  exact List.map_id'' (fun p => Pair.ofPiece_toPiece p) ps

/-- Pairs are read back from their form behind the mark that introduces it. -/
theorem ofForm_mark_toForm (ps : Pairs) : ofForm ('?' :: toForm ps) = ps := by
  have h := ofForm_toForm ps
  rwa [ofForm, dropMark_toForm] at h

theorem dropMark_append_cons (s t : List Char) :
    dropMark (s ++ '&' :: t) = dropMark s ++ '&' :: t := by
  rcases s with _ | ⟨c, s⟩
  · rfl
  · by_cases hc : c = '?' <;> simp [dropMark, hc]

/-- A piece behind a form adds its pair, whatever the form ends with. -/
theorem ofForm_append_toPiece (s : List Char) (p : Pair) :
    ofForm (s ++ '&' :: p.toPiece) = ofForm s ++ [p] := by
  have hp : '&' ∉ p.toPiece := fun h => by
    have := Pair.isPlain_of_mem_toPiece h
    revert this
    decide
  rw [ofForm, dropMark_append_cons, List.splitOn_append_cons_self, List.splitOn_eq_singleton hp,
    List.filter_append, List.filter_cons_of_pos (by simp [Pair.toPiece_ne_nil]), List.filter_nil,
    List.map_append, List.map_singleton, Pair.ofPiece_toPiece, ofForm]

/-- Pieces behind a form add their pairs. -/
theorem ofForm_append_flatMap (s : List Char) (ps : Pairs) :
    ofForm (s ++ ps.flatMap fun p => '&' :: p.toPiece) = ofForm s ++ ps := by
  induction ps generalizing s with
  | nil => rw [List.flatMap_nil, List.append_nil, List.append_nil]
  | cons p ps ih =>
    rw [List.flatMap_cons, ← List.append_assoc, ih, ofForm_append_toPiece, List.append_assoc,
      List.singleton_append]

end Pairs

end QueryEdit
