import QueryEdit.Proofs.Url.WellFormed
import QueryEdit.Traced

/-!
# Reachable URLs

The URLs that one gets from a text by reading it and then editing its query, in any
of the ways of doing so (`Url.Step`): by mutations, by the parts of mutations, or by
tokens. Each is the URL of the text after some mutations in turn
(`Url.reachable_iff`).

Edits touch the query only. So what reading puts into the location and the fragment
stays there (`Url.Reachable.toChars_location`, `Url.Reachable.fragmentChars_eq`), and
with it all that makes the text of a URL readable again (`Url.Reachable.wellFormed`). In
the text of a reachable URL, all but the query is what stood in the text that was read
(`Url.Reachable.toList_render`).
-/

namespace QueryEdit

namespace Url

/-! ### Steps -/

/-- A URL and the one after it: by a mutation, by the parts of one, or by a token. -/
inductive Step (u : Url) : Url → Prop
  | edit (m : Mutation) : Step u (u.edit m)
  | apply {v : Url} {key : String} {op : Operator} {operand : Option Value} :
      u.apply key op operand = .ok v → Step u v
  | token {v : Url} {t : Token} : (u.performToken t).run.result = .ok v → Step u v

/-- The URLs that steps lead to from the URL of a text. -/
inductive Reachable (s : String) : Url → Prop
  | start {u : Url} : parse s = .ok u → Reachable s u
  | step {u v : Url} : Reachable s u → Step u v → Reachable s v

variable {s : String} {u v : Url}

theorem exists_edit_of_apply {key : String} {op : Operator} {operand : Option Value}
    (h : u.apply key op operand = .ok v) : ∃ m, v = u.edit m := by
  rw [apply] at h
  cases hm : Mutation.ofParts key op operand with
  | error e =>
    rw [hm] at h
    cases h
  | ok m =>
    rw [hm] at h
    exact ⟨m, (Except.ok.inj h).symm⟩

/-- Every step is an edit. -/
theorem Step.exists_edit (h : Step u v) : ∃ m, v = u.edit m := by
  cases h with
  | edit m => exact ⟨m, rfl⟩
  | apply h => exact exists_edit_of_apply h
  | token h =>
    rw [performToken, result_performParts] at h
    exact exists_edit_of_apply h

/-- The reachable URLs are those after mutations in turn. -/
theorem reachable_iff : Reachable s u ↔ ∃ v ms, parse s = .ok v ∧ u = v.editAll ms := by
  constructor
  · intro h
    induction h with
    | start h => exact ⟨_, [], h, rfl⟩
    | step _ hst ih =>
      obtain ⟨v, ms, hv, rfl⟩ := ih
      obtain ⟨m, rfl⟩ := hst.exists_edit
      exact ⟨v, ms ++ [m], hv, by rw [editAll, editAll, List.foldl_append]; rfl⟩
  · rintro ⟨v, ms, hv, rfl⟩
    -- Generalised over the URL from which the mutations start.
    have hr : ∀ (ms : List Mutation) (w : Url), Reachable s w → Reachable s (w.editAll ms) := by
      intro ms
      induction ms with
      | nil => exact fun _ h => h
      | cons m ms ih => exact fun w h => ih _ (.step h (.edit m))
    exact hr ms v (.start hv)

/-! ### What edits keep -/

/-- The location of a reachable URL is the text before its query and its fragment. -/
theorem Reachable.toChars_location (h : Reachable s u) :
    u.location.toChars =
      ((Text.cleanChars s.toList).takeWhile (· != '#')).takeWhile (· != '?') := by
  induction h with
  | start h => exact (Location.parse_eq_ok_iff.1 (parts_of_parse h).1).2
  | step _ hst ih =>
    obtain ⟨m, rfl⟩ := hst.exists_edit
    exact ih

/-- The fragment of a reachable URL is the text from the first `#` on. -/
theorem Reachable.fragmentChars_eq (h : Reachable s u) :
    fragmentChars u.fragment = (Text.cleanChars s.toList).dropWhile (· != '#') := by
  induction h with
  | start h => exact (parts_of_parse h).2.2
  | step _ hst ih =>
    obtain ⟨m, rfl⟩ := hst.exists_edit
    exact ih

/-- Reachable URLs are well-formed. -/
theorem Reachable.wellFormed (h : Reachable s u) : u.WellFormed := by
  induction h with
  | start h => exact wellFormed_of_parse h
  | step _ hst ih =>
    obtain ⟨m, rfl⟩ := hst.exists_edit
    exact WellFormedUrl.wellFormed_edit ⟨_, ih⟩ m

/-! ### The text of a reachable URL -/

/-- A reachable URL is written as the text that was read, cleaned, with the form of its pairs
    in place of the query. The form holds no delimiter of a URL. -/
theorem Reachable.toList_render (h : Reachable s u) :
    let c := Text.cleanChars s.toList
    let form := ['&'].intercalate (u.query.toList.map fun p =>
      Component.encode p.key.toList ++ '=' :: Component.encode p.value.toList)
    u.render.toList = (c.takeWhile (· != '#')).takeWhile (· != '?') ++
        (if u.query.toList = [] then [] else '?' :: form) ++ c.dropWhile (· != '#') ∧
      '?' ∉ form ∧ '#' ∉ form := by
  intro c form
  refine ⟨?_, not_mem_toForm u.query.toList⟩
  lift u to WellFormedUrl using h.wellFormed
  rw [render, String.toList_ofList, h.toChars_location, h.fragmentChars_eq,
    queryChars_eq u.validQuery]
  rfl

/-- Empty parts are kept, and a delimiter in a value is escaped. -/
theorem toList_render_of_add :
    ∃ u, Reachable " //@h:/p#f" u ∧ u.render.toList = "//@h:/p?k=%23#f".toList := by
  have hu : parse " //@h:/p#f" = .ok
      ⟨⟨none, some ⟨some "", .name "h", some ""⟩, "/p"⟩, .ofList [], some "f"⟩ := rfl
  have hr := Reachable.step (.start hu) (.edit (.add "k" "#"))
  exact ⟨_, hr, (Reachable.toList_render hr).1.trans (by decide)⟩

end Url

end QueryEdit
