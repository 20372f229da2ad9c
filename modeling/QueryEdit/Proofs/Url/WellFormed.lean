import Mathlib.Tactic.Lift
import QueryEdit.Proofs.Query.Edit
import QueryEdit.Proofs.Url.Text

/-!
# Well-formed URLs

The location of a URL that was read is well-formed and its query valid, and in its text
the query and the fragment begin where reading looks for them (`Url.WellFormed`). A
`WellFormedUrl` is a URL together with the proof of this. What is read is one
(`Url.wellFormed_of_parse`), and mutations of one give another (`WellFormedUrl.edit`,
`WellFormedUrl.editAll`), since they touch the query only.

What one sees of the query of such a URL is decided by its pairs (`WellFormedUrl.get?_eq`,
`WellFormedUrl.getAll_eq`, `WellFormedUrl.beq_iff`), and mutations do to these what they do
to a plain sequence (`WellFormedUrl.toList_edit`, `WellFormedUrl.toList_editAll`).
-/

namespace QueryEdit

/-- The location is well-formed and the query valid, and in the text of the URL, which is
    clean but for the end of its location, the query and the fragment begin where they
    should. -/
structure Url.WellFormed (u : Url) : Prop where
  location : u.location.WellFormed
  query : u.query.Valid
  not_mem : '?' ∉ u.location.toChars ∧ '#' ∉ u.location.toChars
  head : ∀ c ∈ u.location.toChars.head?, Text.isOuter c = false
  last : ∀ c ∈ (fragmentChars u.fragment).getLast?, Text.isOuter c = false
  breaks : ∀ c ∈ u.location.toChars ++ fragmentChars u.fragment, Text.isBreak c = false

/-- What is read as a URL is well-formed. -/
theorem Url.wellFormed_of_parse {s : String} {u : Url} (h : parse s = .ok u) : u.WellFormed := by
  obtain ⟨hl, hq, hf⟩ := parts_of_parse h
  obtain ⟨hw, ht⟩ := Location.parse_eq_ok_iff.1 hl
  have hc := Text.isClean_cleanChars s.toList
  generalize Text.cleanChars s.toList = c at hc hf ht
  -- The location begins the clean text, and the fragment ends it.
  have hpre : (c.takeWhile (· != '#')).takeWhile (· != '?') <+: c :=
    (List.takeWhile_prefix _).trans (List.takeWhile_prefix _)
  have hsuf : c.dropWhile (· != '#') <:+ c := List.dropWhile_suffix _
  refine ⟨hw, ?_, ⟨?_, ?_⟩, ?_, ?_, ?_⟩
  · rw [hq]
    exact ValidQuery.valid_ofForm _
  · rw [ht]
    exact Text.not_mem_takeWhile '?' _
  · rw [ht]
    exact fun hm => Text.not_mem_takeWhile '#' c ((List.takeWhile_prefix _).subset hm)
  · rw [ht]
    exact Text.forall_head?_of_prefix hpre hc.head
  · rw [hf]
    exact Text.forall_getLast?_of_suffix hsuf hc.last
  · rw [ht, hf]
    intro x hx
    rcases List.mem_append.1 hx with hx | hx
    · exact hc.breaks x (hpre.subset hx)
    · exact hc.breaks x (hsuf.subset hx)

/-- A URL together with the proof that it is well-formed. -/
structure WellFormedUrl extends Url where
  wellFormed : toUrl.WellFormed

namespace WellFormedUrl

instance : CanLift Url WellFormedUrl toUrl Url.WellFormed := ⟨fun u h => ⟨⟨u, h⟩, rfl⟩⟩

variable (u v : WellFormedUrl)

/-- The location, with the proof that it is well-formed. -/
abbrev wellFormedLocation : WellFormedLocation := ⟨u.location, u.wellFormed.location⟩

/-- The query, with the proof that it is valid. -/
abbrev validQuery : ValidQuery := ⟨u.query, u.wellFormed.query⟩

/-! ### Observations -/

/-- The first value of a key is that of its first pair. -/
theorem get?_eq (key : String) : u.get? key = (Pairs.valuesOf key u.query.toList).head? :=
  u.validQuery.get?_eq key

/-- The values of a key are those of its pairs. -/
theorem getAll_eq (key : String) : u.getAll key = Pairs.valuesOf key u.query.toList :=
  u.validQuery.getAll_eq key

/-- URLs are equal exactly if their locations, their pairs and their fragments are. -/
theorem beq_iff : (u.toUrl == v.toUrl) = true ↔
    u.location = v.location ∧ u.query.toList = v.query.toList ∧ u.fragment = v.fragment := by
  change (u.location == v.location && u.query == v.query && u.fragment == v.fragment) = true ↔ _
  rw [u.validQuery.beq_eq v.validQuery, Bool.and_eq_true, Bool.and_eq_true, beq_iff_eq,
    beq_iff_eq, decide_eq_true_iff, and_assoc]

/-! ### Mutations -/

/-- A URL stays well-formed under every mutation. -/
theorem wellFormed_edit (m : Mutation) : (u.toUrl.edit m).WellFormed :=
  { u.wellFormed with query := u.validQuery.valid_edit m }

/-- The URL after a mutation. -/
def edit (m : Mutation) : WellFormedUrl := ⟨u.toUrl.edit m, u.wellFormed_edit m⟩

/-- A mutation does to the pairs of a URL what it does to a plain sequence. -/
@[simp] theorem toList_edit (m : Mutation) :
    (u.edit m).query.toList = Pairs.edit u.query.toList m :=
  u.validQuery.toList_edit m

/-- A URL stays well-formed under mutations in turn. -/
theorem wellFormed_editAll (ms : List Mutation) : (u.toUrl.editAll ms).WellFormed := by
  rw [Url.editAll_eq]
  exact { u.wellFormed with query := u.validQuery.valid_foldl_edit ms }

/-- The URL after mutations in turn. -/
def editAll (ms : List Mutation) : WellFormedUrl :=
  ⟨u.toUrl.editAll ms, u.wellFormed_editAll ms⟩

/-- Mutations in turn do to the pairs of a URL what they do to a plain sequence. -/
@[simp] theorem toList_editAll (ms : List Mutation) :
    (u.editAll ms).query.toList = Pairs.editAll u.query.toList ms := by
  change (u.toUrl.editAll ms).query.toList = _
  rw [Url.query_editAll]
  exact u.validQuery.toList_editAll ms

end WellFormedUrl

end QueryEdit
