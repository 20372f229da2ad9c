import QueryEdit.Form.Pairs.Lemmas
import QueryEdit.Proofs.Url.Location
import QueryEdit.Query.Valid
import QueryEdit.Url.Basic

/-!
# The text of a URL

A URL is read from the parts of a clean text: the part before the first `#` and the
first `?`, the part between them, and the part from the first `#` on
(`Url.parts_of_parse`). It is written as a location, a query and a fragment, which
are these parts again, since neither the location nor the text of a query holds a
delimiter behind it (`Url.parse_of_cleanChars_eq`).
-/

namespace QueryEdit.Url

variable {s : String} {u : Url}

/-! ### Reading the parts -/

/-- The part behind the first delimiter, with the delimiter. -/
theorem elim_cutFirst (d : Char) (s : List Char) :
    ((Text.cutFirst d s).2.elim [] fun r => d :: r) = s.dropWhile (· != d) := by
  by_cases hd : d ∈ s
  · obtain ⟨a, b, rfl, ha⟩ := List.eq_append_cons_of_mem hd
    rw [Text.cutFirst_append ha, Option.elim_some, Text.dropWhile_append_of_head?]
    · exact fun c hc => bne_iff_ne.2 fun e => ha (e ▸ hc)
    · rintro _ ⟨⟩
      exact bne_self_eq_false d
  · rw [Text.cutFirst_of_not_mem hd, Option.elim_none, eq_comm, List.dropWhile_eq_nil_iff]
    exact fun c hc => bne_iff_ne.2 fun e => hd (e ▸ hc)

/-- The text of a fragment that was cut off is the part from its `#` on. -/
theorem fragmentChars_map (o : Option (List Char)) :
    fragmentChars (o.map String.ofList) = o.elim [] fun r => '#' :: r := by
  cases o with
  | none => rfl
  | some r => rw [Option.map_some, fragmentChars, Option.elim_some, String.toList_ofList]; rfl

/-- A URL is read from the parts of the clean text. -/
theorem parse_eq (s : String) :
    let c := Text.cleanChars s.toList
    parse s = (Location.parse ((c.takeWhile (· != '#')).takeWhile (· != '?'))).map
      fun location => ⟨location,
        Query.ofForm ((Text.cutFirst '?' (c.takeWhile (· != '#'))).2.getD []),
        (Text.cutFirst '#' c).2.map String.ofList⟩ := by
  simp only [parse, Text.toList_clean, Text.cutFirst]

/-- What is read as a URL has these parts. -/
theorem parts_of_parse (h : parse s = .ok u) :
    let c := Text.cleanChars s.toList
    Location.parse ((c.takeWhile (· != '#')).takeWhile (· != '?')) = .ok u.location ∧
      u.query = Query.ofForm ((Text.cutFirst '?' (c.takeWhile (· != '#'))).2.getD []) ∧
      fragmentChars u.fragment = c.dropWhile (· != '#') := by
  intro c
  rw [parse_eq] at h
  cases hl : Location.parse ((c.takeWhile (· != '#')).takeWhile (· != '?')) with
  | error e =>
    rw [hl] at h
    cases h
  | ok l =>
    rw [hl, Except.map, Except.ok.injEq] at h
    subst h
    dsimp only
    exact ⟨rfl, rfl, (fragmentChars_map _).trans (elim_cutFirst '#' c)⟩

/-! ### The text of a query -/

/-- A query is written as its pairs, behind a `?` if there are any. -/
theorem queryChars_eq (q : ValidQuery) :
    queryChars q.toQuery = if q.toList = [] then [] else '?' :: Pairs.toForm q.toList := by
  rw [queryChars, q.isEmpty_eq]
  simp only [List.isEmpty_iff]
  rfl

/-- The characters of forms are not outer, and no delimiters of a URL. -/
theorem isOuter_of_mem_toForm {ps : Pairs} {c : Char} (h : c ∈ Pairs.toForm ps) :
    Text.isOuter c = false ∧ c ≠ '?' ∧ c ≠ '#' := by
  rcases Pairs.isPlain_of_mem_toForm h with hc | rfl | rfl | rfl | rfl
  · refine ⟨Text.isOuter_eq_false (by decide) hc, ?_, ?_⟩ <;> rintro rfl <;> revert hc <;> decide
  all_goals decide

/-- The form of pairs holds no delimiter of a URL. -/
theorem not_mem_toForm (ps : Pairs) : '?' ∉ Pairs.toForm ps ∧ '#' ∉ Pairs.toForm ps :=
  ⟨fun h => (isOuter_of_mem_toForm h).2.1 rfl, fun h => (isOuter_of_mem_toForm h).2.2 rfl⟩

/-- The text of a query holds no outer characters. -/
theorem isOuter_of_mem_queryChars (q : ValidQuery) :
    ∀ c ∈ queryChars q.toQuery, Text.isOuter c = false := by
  intro c hc
  rw [queryChars_eq] at hc
  split_ifs at hc
  · exact absurd hc List.not_mem_nil
  · rcases List.mem_cons.1 hc with rfl | hc
    · decide
    · exact (isOuter_of_mem_toForm hc).1

/-- The text of a query ends before the fragment begins. -/
theorem not_mem_queryChars (q : ValidQuery) : '#' ∉ queryChars q.toQuery := by
  rw [queryChars_eq]
  split_ifs
  · exact List.not_mem_nil
  · simp [not_mem_toForm]

/-! ### Reading a text made of parts -/

/-- The fragment is cut off where it begins. -/
theorem cutFirst_fragmentChars {b : List Char} (f : Option String) (h : '#' ∉ b) :
    Text.cutFirst '#' (b ++ fragmentChars f) = (b, f.map String.toList) := by
  cases f with
  | none =>
    change Text.cutFirst '#' (b ++ []) = (b, none)
    rw [List.append_nil, Text.cutFirst_of_not_mem h]
  | some f => exact Text.cutFirst_append h

/-- The query is cut off where it begins, and read as the query that was written. -/
theorem cutFirst_queryChars {l : List Char} (q : ValidQuery) (h : '?' ∉ l) :
    (Text.cutFirst '?' (l ++ queryChars q.toQuery)).1 = l ∧
      Query.ofForm ((Text.cutFirst '?' (l ++ queryChars q.toQuery)).2.getD []) =
        .ofList q.toList := by
  rw [queryChars_eq]
  split_ifs with he
  · rw [List.append_nil, Text.cutFirst_of_not_mem h, he]
    exact ⟨rfl, rfl⟩
  · rw [Text.cutFirst_append h, Option.getD_some, Query.ofForm, Pairs.ofForm_toForm]
    exact ⟨rfl, rfl⟩

/-- A text whose clean text is a location, a query and a fragment is read as these. -/
theorem parse_of_cleanChars_eq {l : List Char} {f : Option String} (q : ValidQuery)
    (hl : '?' ∉ l ∧ '#' ∉ l)
    (h : Text.cleanChars s.toList = l ++ queryChars q.toQuery ++ fragmentChars f) :
    parse s = (Location.parse l).map fun location => ⟨location, .ofList q.toList, f⟩ := by
  -- The first `#` is that of the fragment, and the first `?` that of the query.
  have hbody : '#' ∉ l ++ queryChars q.toQuery :=
    List.not_mem_append hl.2 (not_mem_queryChars q)
  obtain ⟨h₁, h₂⟩ := cutFirst_queryChars q hl.1
  have hf : (f.map String.toList).map String.ofList = f := by cases f <;> simp
  rw [parse, Text.toList_clean, h, cutFirst_fragmentChars f hbody]
  simp only [h₁, h₂, hf]

end QueryEdit.Url
