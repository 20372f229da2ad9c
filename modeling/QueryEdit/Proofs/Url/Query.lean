import QueryEdit.Proofs.Form.Reading
import QueryEdit.Proofs.Url.Reachable

/-!
# The query of a URL

The query is the text behind the first `?` and before the first `#` of the clean text
(`Url.queryText`). Its pairs are read from it as from any form, unless it begins with
another `?`. Then this one is taken for the mark of the form, and the pairs are those of
the text behind it (`Url.reads_queryText_iff`).

To write pairs behind a text with a query, and to add them to the URL of the text, is the
same (`Url.parse_append_pairs`): a piece is closed off by its `&`, so nothing that the
query may end with runs into what follows.
-/

namespace QueryEdit

/-- The query of a form with pieces behind it is the query of the form, with pairs added. -/
theorem Query.ofForm_append_flatMap (s : List Char) (ps : Pairs) :
    ofForm (s ++ ps.flatMap fun p => '&' :: p.toPiece) = ps.foldl push (ofForm s) := by
  rw [ofForm, Pairs.ofForm_append_flatMap, ofList, List.foldl_append]
  rfl

namespace Url

variable {s : String} {u : Url}

/-! ### Reading the query -/

/-- The text of the query: what stands behind the first `?` and before the first `#`. -/
def queryText (s : String) : List Char :=
  (((Text.cleanChars s.toList).takeWhile (· != '#')).dropWhile (· != '?')).tail

theorem toList_query_of_parse (h : parse s = .ok u) :
    u.query.toList = Pairs.ofForm (queryText s) := by
  rw [(parts_of_parse h).2.1, Query.ofForm, Query.toList_ofList, Text.cutFirst,
    ← List.tail_eq_tail?, queryText]

/-- The pairs of a URL are read from its query exactly if the query does not begin with a `?`.
    From a query that does, they are read without it. -/
theorem reads_queryText_iff (h : parse s = .ok u) :
    (Pairs.Reads (queryText s) u.query.toList ↔ ∀ r, queryText s ≠ '?' :: r) ∧
      ∀ r, queryText s = '?' :: r → Pairs.Reads r u.query.toList := by
  rw [toList_query_of_parse h]
  refine ⟨⟨fun hr r hs => ?_, Pairs.reads_ofForm_of_ne⟩, fun r hs => ?_⟩
  · rw [hs] at hr
    exact Pairs.not_reads_ofForm_mark r hr
  · rw [hs]
    exact Pairs.reads_ofForm_mark r

/-- Escapes are read as bytes and bytes as UTF-8. A `?` that is not the first character stays. -/
theorem reads_queryText_escapes :
    ∃ u, parse "/?k+1=%41%e9&&%zz=?" = .ok u ∧
      u.query.toList = [⟨"k 1", "A\uFFFD"⟩, ⟨"%zz", "?"⟩] ∧
      Pairs.Reads "k+1=%41%e9&&%zz=?".toList u.query.toList := by
  obtain ⟨u, hu, hq⟩ : ∃ u, parse "/?k+1=%41%e9&&%zz=?" = .ok u ∧
      u.query.toList = [⟨"k 1", "A\uFFFD"⟩, ⟨"%zz", "?"⟩] := ⟨_, rfl, by decide⟩
  have hs : queryText "/?k+1=%41%e9&&%zz=?" = "k+1=%41%e9&&%zz=?".toList := by decide
  refine ⟨u, hu, hq, hs ▸ (reads_queryText_iff hu).1.2 fun r hr => ?_⟩
  have hk := (List.cons.inj (hs.symm.trans hr)).1
  revert hk
  decide

/-- The second `?` is lost. -/
theorem not_reads_queryText :
    ∃ u, parse "/x??a=1" = .ok u ∧ u.query.toList = [⟨"a", "1"⟩] ∧
      ¬Pairs.Reads (queryText "/x??a=1") u.query.toList := by
  obtain ⟨u, hu, hq⟩ : ∃ u, parse "/x??a=1" = .ok u ∧ u.query.toList = [⟨"a", "1"⟩] :=
    ⟨_, rfl, by decide⟩
  have hs : queryText "/x??a=1" = '?' :: "a=1".toList := by decide
  refine ⟨u, hu, hq, ?_⟩
  rw [toList_query_of_parse hu, hs]
  exact Pairs.not_reads_ofForm_mark _

/-! ### Writing pairs behind a query -/

/-- A text with a query and without a fragment is read from its two parts. -/
theorem parse_of_cleanChars_eq_append {l r : List Char} (hl : '?' ∉ l)
    (hf : '#' ∉ l ++ '?' :: r) (h : Text.cleanChars s.toList = l ++ '?' :: r) :
    parse s = (Location.parse l).map fun location => ⟨location, Query.ofForm r, none⟩ := by
  rw [parse, Text.toList_clean, h, Text.cutFirst_of_not_mem hf]
  simp only [Text.cutFirst_append hl, Option.getD_some, Option.map_none]

/-- Pairs that are added in turn are pushed in turn. -/
theorem editAll_map_add (u : Url) (ps : Pairs) :
    u.editAll (ps.map fun p => .add p.key p.value) =
      { u with query := ps.foldl Query.push u.query } := by
  induction ps generalizing u with
  | nil => rfl
  | cons p ps ih => exact ih (u.edit (.add p.key p.value))

/-- The characters of pieces behind a form are those of forms. -/
theorem isOuter_of_mem_flatMap {ps : Pairs} {c : Char}
    (h : c ∈ ps.flatMap fun p => '&' :: p.toPiece) : Text.isOuter c = false ∧ c ≠ '#' := by
  obtain ⟨p, -, h⟩ := List.mem_flatMap.1 h
  rcases List.mem_cons.1 h with rfl | h
  · decide
  · have hp : Pairs.toForm [p] = p.toPiece := List.intercalate_singleton
    obtain ⟨hc, -, hf⟩ := isOuter_of_mem_toForm (hp ▸ h)
    exact ⟨hc, hf⟩

/-- Cleaning keeps pieces behind a text that does not end with an outer character. -/
theorem cleanChars_append_flatMap (hs : ∀ c ∈ s.toList.getLast?, 0x20 < c.toNat) (ps : Pairs) :
    Text.cleanChars (s ++ String.ofList (ps.flatMap fun p => '&' :: p.toPiece)).toList =
      Text.cleanChars s.toList ++ ps.flatMap fun p => '&' :: p.toPiece := by
  rw [String.toList_append, String.toList_ofList]
  refine Text.cleanChars_append (fun c hc => ?_) fun c hc => (isOuter_of_mem_flatMap hc).1
  exact decide_eq_false (Nat.not_le.2 (hs c hc))

/-- Pairs behind a text with a query are read as if they were added to the URL of the text. -/
theorem parse_append_pairs (hq : '?' ∈ s.toList) (hf : '#' ∉ s.toList)
    (hs : ∀ c ∈ s.toList.getLast?, 0x20 < c.toNat) (ps : Pairs) :
    let pieces := ps.flatMap fun p =>
      '&' :: (Component.encode p.key.toList ++ '=' :: Component.encode p.value.toList)
    parse (s ++ String.ofList pieces) =
      (parse s).map fun u => u.editAll (ps.map fun p => .add p.key p.value) := by
  intro pieces
  have hclean : Text.cleanChars (s ++ String.ofList pieces).toList =
      Text.cleanChars s.toList ++ pieces := cleanChars_append_flatMap hs ps
  obtain ⟨l, r, hc, hl⟩ := List.eq_append_cons_of_mem (Text.mem_cleanChars hq (by decide))
  -- No fragment begins in the text, nor in the pieces that end its query.
  have hfront : '#' ∉ l ++ '?' :: r := hc ▸ mt Text.mem_of_mem_cleanChars hf
  have hback : '#' ∉ l ++ '?' :: r ++ pieces :=
    List.not_mem_append hfront fun h => (isOuter_of_mem_flatMap h).2 rfl
  rw [hc, List.append_assoc, List.cons_append] at hclean
  rw [List.append_assoc, List.cons_append] at hback
  rw [parse_of_cleanChars_eq_append hl hback hclean, parse_of_cleanChars_eq_append hl hfront hc]
  cases Location.parse l with
  | error e => rfl
  | ok location =>
    refine congrArg Except.ok (.trans ?_ (editAll_map_add _ ps).symm)
    rw [← Query.ofForm_append_flatMap]
    rfl

/-- The query begins with a `?`, and ends with half an escape that does not run into the
    delimiter behind it. -/
theorem parse_append_pairs_escapes :
    ∃ u, parse "//h?? a=%" = .ok u ∧
      parse "//h?? a=%&%3F=%26&=%C3%A9" = .ok (u.editAll [.add "?" "&", .add "" "é"]) := by
  obtain ⟨u, hu⟩ : ∃ u, parse "//h?? a=%" = .ok u := ⟨_, rfl⟩
  have hlast : ∀ c ∈ "//h?? a=%".toList.getLast?, 0x20 < c.toNat := by
    rintro _ ⟨⟩
    decide
  have h := @parse_append_pairs "//h?? a=%" (by decide) (by decide) hlast
    [⟨"?", "&"⟩, ⟨"", "é"⟩]
  rw [hu] at h
  exact ⟨u, hu, h⟩

end Url

end QueryEdit
