import QueryEdit.Proofs.Url.Equality
import QueryEdit.Proofs.Url.Keys

/-!
# Setting a key

To set a key is to drop its pairs and to write one pair at the end, or none for null
(`Pairs.edit_set`). What is left of the pairs before does not depend on the pairs of the key,
and so not on what was done to the key either (`Pairs.edit_set_editAll`).

In a URL the pairs that are dropped leave holes, more of them the more was done to the key.
This is not seen: to set a key after mutations of this key, and to set it at once, gives
equal URLs with one text (`Url.Reachable.editAll_set`).
-/

namespace QueryEdit

variable {key : String} {ms : List Mutation}

namespace Pairs

/-- The pairs after a key is set: those of other keys, and the new one. -/
theorem edit_set (ps : Pairs) (key : String) (v : Value) :
    edit ps (.set key v) = without key ps ++ v.toQuery?.toList.map fun text => ⟨key, text⟩ := by
  rw [edit]
  cases v.toQuery? with
  | none => exact (List.append_nil _).symm
  | some text => rfl

/-- Mutations of a key leave the pairs of other keys as they are. -/
theorem without_editAll (h : ∀ m ∈ ms, m.key = key) (ps : Pairs) :
    without key (editAll ps ms) = without key ps := by
  have hn : (ms.filter fun m => m.key != key) = [] :=
    List.filter_eq_nil_iff.2 fun m hm => by simp [h m hm]
  have ho := ofKeys_editAll (· != key) ps ms
  rw [hn] at ho
  exact ho

/-- Setting a key absorbs what was done to it. -/
theorem edit_set_editAll (h : ∀ m ∈ ms, m.key = key) (ps : Pairs) (v : Value) :
    edit (editAll ps ms) (.set key v) = edit ps (.set key v) := by
  rw [edit_set, edit_set, without_editAll h]

end Pairs

/-- Setting a key after mutations of it gives the same as setting it at once. -/
theorem WellFormedUrl.same_editAll_set (u : WellFormedUrl) (h : ∀ m ∈ ms, m.key = key)
    (v : Value) : Url.Same ((u.editAll ms).edit (.set key v)).toUrl (u.edit (.set key v)).toUrl := by
  refine ⟨WellFormedUrl.wellFormed _, WellFormedUrl.wellFormed _, ?_⟩
  rw [beq_iff, toList_edit, toList_editAll, toList_edit, Pairs.edit_set_editAll h]
  -- The location and the fragment are those of `u` on both sides.
  exact ⟨u.toUrl.location_editAll ms, rfl, u.toUrl.fragment_editAll ms⟩

namespace Url

variable {s : String} {u : Url}

/-- To set a key after mutations that all name this key, and to set it at once, gives equal URLs
    with one text. -/
theorem Reachable.editAll_set (h : Reachable s u) (hms : ∀ m ∈ ms, m.key = key) (v : Value) :
    ((u.editAll ms).edit (.set key v) == u.edit (.set key v)) = true ∧
      ((u.editAll ms).edit (.set key v)).render = (u.edit (.set key v)).render := by
  have hs := WellFormedUrl.same_editAll_set ⟨u, h.wellFormed⟩ hms v
  exact ⟨hs.beq, hs.agree.render⟩

/-- The key is removed, which rebuilds the query, and comes back with other values. -/
theorem editAll_set_removed :
    ∃ u v, Reachable "/?a&a&a&a&b=2&a&a&a&a" u ∧
      v = u.editAll [.set "a" .null, .add "a" "x", .inc "a" 3, .replace "a" "3"] ∧
      (v.edit (.set "a" (.int 7)) == u.edit (.set "a" (.int 7))) = true ∧
      (v.edit (.set "a" (.int 7))).render = "/?b=2&a=7" := by
  have hms : ∀ m ∈ [Mutation.set "a" .null, .add "a" "x", .inc "a" 3, .replace "a" "3"],
      m.key = "a" := by decide
  obtain ⟨u, hu, hr⟩ : ∃ u, parse "/?a&a&a&a&b=2&a&a&a&a" = .ok u ∧
      (u.edit (.set "a" (.int 7))).render = "/?b=2&a=7" := ⟨_, rfl, by decide⟩
  obtain ⟨hbeq, hrender⟩ := Reachable.editAll_set (.start hu) hms (.int 7)
  exact ⟨u, _, .start hu, rfl, hbeq, hrender.trans hr⟩

end Url

end QueryEdit
