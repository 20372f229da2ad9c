import QueryEdit.Proofs.Url.Reachable

/-!
# Reading a written URL

The text of a reachable URL is read back, and as the URL it is the text of
(`WellFormedUrl.parse_render`) but for one thing. A path may end with spaces and controls, as
it is kept as it was written. Behind it comes the query or the fragment; but where
the query is empty and there is no fragment, the path ends the text, and reading
drops its end (`Url.reread`).

* `Url.Reachable.exists_parse_render`: the pairs and all parts but the path are the
  same, and a second reading changes nothing more;
* `Url.exists_parse_render_beq_iff`: which URLs are read back whole.
-/

namespace QueryEdit

/-! ### The end of a path -/

namespace Location

variable {l : Location}

/-- The location without the outer characters at the end of its path. -/
def trimEnd (l : Location) : Location :=
  { l with path := String.ofList (l.path.toList.rdropWhile Text.isOuter) }

/-- A location is trimmed already if its path does not end in padding. -/
theorem trimEnd_eq_self_iff :
    l.trimEnd = l ↔ ∀ c ∈ l.path.toList.getLast?, Text.isOuter c = false := by
  have hp : l.trimEnd = l ↔ l.path.toList.rdropWhile Text.isOuter = l.path.toList := by
    rw [trimEnd, Location.mk.injEq, ← String.toList_inj, String.toList_ofList]
    exact ⟨fun h => h.2.2, fun h => ⟨rfl, rfl, h⟩⟩
  rw [hp, List.rdropWhile_eq_self_iff]
  constructor
  · intro h c hc
    obtain ⟨hne, rfl⟩ := List.mem_getLast?_eq_getLast hc
    exact Bool.eq_false_iff.2 (h hne)
  · intro h hne
    exact Bool.eq_false_iff.1 (h _ (List.getLast?_eq_some_getLast hne))

/-- Trimming twice is trimming once. -/
theorem trimEnd_trimEnd (l : Location) : l.trimEnd.trimEnd = l.trimEnd := by
  rw [trimEnd, trimEnd, String.toList_ofList, List.rdropWhile_idempotent]

end Location

namespace WellFormedLocation

variable (l : WellFormedLocation)

/-- Nothing before the path ends with an outer character. -/
theorem isOuter_getLast?_front :
    ∀ c ∈ ((l.scheme.elim [] fun s => s.toList ++ [':']) ++
      l.authority.elim [] Authority.toChars).getLast?, Text.isOuter c = false := by
  refine Text.forall_getLast?_append ?_ ?_
  · cases l.scheme with
    | none => exact fun c hc => absurd hc (Option.not_mem_none c)
    | some s =>
      rw [Option.elim_some, List.getLast?_concat]
      rintro _ ⟨⟩
      rfl
  · cases ha : l.authority with
    | none => exact fun c hc => absurd hc (Option.not_mem_none c)
    | some a => exact Authority.isOuter_getLast?_toChars (l.wellFormed.authority a ha)

/-- Without the end of the path, the text of a location lacks its end. -/
theorem toChars_trimEnd :
    l.toLocation.trimEnd.toChars = l.toChars.rdropWhile Text.isOuter := by
  rw [Location.toChars, Location.toChars,
    Text.rdropWhile_append_of_getLast? l.isOuter_getLast?_front, Location.trimEnd,
    String.toList_ofList]

/-- A location stays well-formed without the end of its path. -/
theorem wellFormed_trimEnd : l.toLocation.trimEnd.WellFormed := by
  have h := l.wellFormed
  -- Every condition on the text is one on its beginnings.
  obtain ⟨t, ht⟩ : l.path.toList.rdropWhile Text.isOuter <+: l.path.toList :=
    List.rdropWhile_prefix _ _
  have hp : l.path.toList = l.toLocation.trimEnd.path.toList ++ t := by
    rw [Location.trimEnd, String.toList_ofList, ht]
  refine ⟨h.scheme, h.authority, h.host, ?_, ?_, ?_⟩
  · intro hs u v huv
    refine h.of_scheme_eq_none hs u (v ++ t) ?_
    rw [← List.cons_append, ← List.append_assoc, ← huv, Location.toChars, Location.toChars, hp,
      ← List.append_assoc]
    rfl
  · intro ha r hr
    refine h.of_authority_eq_none ha (r ++ t) ?_
    rw [hp, hr, List.cons_append, List.cons_append]
  · intro a ha
    exact ⟨(h.slash a ha).1, Text.forall_head?_of_prefix ⟨t, hp.symm⟩ (h.slash a ha).2⟩

end WellFormedLocation

/-! ### What is read -/

namespace Url

variable {s : String}

/-- What is read from the text of a URL: the end of the path is lost if it ends the text. -/
def reread (u : Url) : Url where
  location :=
    if u.query.toList = [] ∧ u.fragment = none then u.location.trimEnd else u.location
  query := .ofList u.query.toList
  fragment := u.fragment

/-- Reading keeps what stands before the path. -/
theorem reread_front (u : Url) :
    u.reread.location.scheme = u.location.scheme ∧
      u.reread.location.authority = u.location.authority := by
  rw [reread]
  split_ifs <;> exact ⟨rfl, rfl⟩

/-- Nothing is lost where nothing is left to lose. -/
theorem reread_reread (u : Url) : u.reread.reread = u.reread := by
  rw [reread, reread]
  simp only [Query.toList_ofList]
  split_ifs
  · rw [Location.trimEnd_trimEnd]
  · rfl

/-- The text of a URL is that of its location, and a rest that the location does not reach. -/
theorem toList_render_append (u : Url) : u.render.toList =
    u.location.toChars ++ (queryChars u.query ++ fragmentChars u.fragment) := by
  rw [render, String.toList_ofList, List.append_assoc]

end Url

namespace WellFormedUrl

open Url

variable (u v : WellFormedUrl)

/-- Only without pairs and without a fragment does the path end the text. -/
theorem tail_eq_nil_iff :
    queryChars u.query ++ fragmentChars u.fragment = [] ↔
      u.query.toList = [] ∧ u.fragment = none := by
  rw [List.append_eq_nil_iff, queryChars_eq u.validQuery]
  cases u.fragment <;> simp [fragmentChars]

/-- What follows the location begins with `?` or `#`. -/
theorem isOuter_head?_tail :
    ∀ c ∈ (queryChars u.query ++ fragmentChars u.fragment).head?, Text.isOuter c = false := by
  refine Text.forall_head?_append ?_ ?_
  · exact fun c hc => isOuter_of_mem_queryChars u.validQuery c (List.mem_of_mem_head? hc)
  · cases u.fragment with
    | none => exact fun c hc => absurd hc (Option.not_mem_none c)
    | some f =>
      rintro _ ⟨⟩
      rfl

/-- What follows the location does not end with an outer character. -/
theorem isOuter_getLast?_tail :
    ∀ c ∈ (queryChars u.query ++ fragmentChars u.fragment).getLast?, Text.isOuter c = false := by
  refine Text.forall_getLast?_append ?_ u.wellFormed.last
  exact fun c hc => isOuter_of_mem_queryChars u.validQuery c (List.mem_of_mem_getLast? hc)

/-- The text of a URL does not begin with an outer character. -/
theorem isOuter_head?_render : ∀ c ∈ u.render.toList.head?, Text.isOuter c = false := by
  rw [toList_render_append]
  exact Text.forall_head?_append u.wellFormed.head u.isOuter_head?_tail

/-- The text of a URL holds no breaks. -/
theorem isBreak_of_mem_render : ∀ c ∈ u.render.toList, Text.isBreak c = false := by
  intro c hc
  rw [toList_render_append, List.mem_append, List.mem_append] at hc
  obtain hc | hc | hc := hc
  · exact u.wellFormed.breaks c (List.mem_append_left _ hc)
  · exact Text.isBreak_eq_false (isOuter_of_mem_queryChars u.validQuery c hc)
  · exact u.wellFormed.breaks c (List.mem_append_right _ hc)

/-- Cleaning the text of a URL drops what rereading it loses. -/
theorem cleanChars_render :
    Text.cleanChars u.render.toList =
      u.toUrl.reread.location.toChars ++ queryChars u.query ++ fragmentChars u.fragment := by
  rw [Text.cleanChars_eq_rdropWhile u.isOuter_head?_render u.isBreak_of_mem_render,
    toList_render_append, reread, List.append_assoc]
  split_ifs with he
  · rw [u.tail_eq_nil_iff.2 he, List.append_nil, List.append_nil,
      u.wellFormedLocation.toChars_trimEnd]
  · -- What follows the location is not empty, and ends the text.
    have hne := mt u.tail_eq_nil_iff.1 he
    rw [List.rdropWhile_eq_self_iff]
    intro hne'
    refine Bool.eq_false_iff.1 (u.isOuter_getLast?_tail _ ?_)
    rw [List.getLast_append_of_ne_nil _ hne]
    exact List.getLast?_eq_some_getLast hne

/-- The location that is read is well-formed. -/
theorem wellFormed_location_reread : u.toUrl.reread.location.WellFormed := by
  rw [Url.reread]
  split_ifs
  · exact u.wellFormedLocation.wellFormed_trimEnd
  · exact u.wellFormed.location

/-- The location that is read holds no delimiter that the location does not hold. -/
theorem not_mem_reread {d : Char} (h : d ∉ u.location.toChars) :
    d ∉ u.toUrl.reread.location.toChars := by
  rw [Url.reread]
  split_ifs
  · rw [u.wellFormedLocation.toChars_trimEnd]
    exact fun hm => h ((List.rdropWhile_prefix _ _).subset hm)
  · exact h

/-- The text of a URL is read back. -/
theorem parse_render : parse u.render = .ok u.toUrl.reread := by
  obtain ⟨hq, hf⟩ := u.wellFormed.not_mem
  rw [parse_of_cleanChars_eq u.validQuery ⟨u.not_mem_reread hq, u.not_mem_reread hf⟩
    u.cleanChars_render, WellFormedLocation.parse_toChars ⟨_, u.wellFormed_location_reread⟩]
  rfl

/-- What is read from the text of a URL. -/
def reread : WellFormedUrl := ⟨u.toUrl.reread, wellFormed_of_parse u.parse_render⟩

end WellFormedUrl

namespace Url

variable {s : String} {u v : Url}

/-- The text of a reachable URL is read as a URL with the same pairs and the same parts but
    for the path, and the text of this one as an equal URL. -/
theorem Reachable.exists_parse_render (h : Reachable s u) :
    ∃ v, parse u.render = .ok v ∧ v.query.toList = u.query.toList ∧
      v.scheme = u.scheme ∧ v.userinfo = u.userinfo ∧ v.host = u.host ∧ v.port = u.port ∧
      v.fragment = u.fragment ∧
      ∃ w, parse v.render = .ok w ∧ (w == v) = true := by
  lift u to WellFormedUrl using h.wellFormed
  obtain ⟨hs, ha⟩ := u.toUrl.reread_front
  refine ⟨u.reread.toUrl, u.parse_render, Query.toList_ofList _, hs, ?_, ?_, ?_, rfl, ?_⟩
  · exact congrArg (Option.bind · Authority.userinfo) ha
  · exact congrArg (Option.map fun a => a.host.toText) ha
  · exact congrArg (Option.bind · Authority.port) ha
  · -- What was read is well-formed in turn, so its text is read back as well.
    have hw := u.reread.parse_render
    rw [show u.reread.toUrl.reread = u.reread.toUrl from u.toUrl.reread_reread] at hw
    exact ⟨u.reread.toUrl, hw, (u.reread.beq_iff u.reread).2 ⟨rfl, rfl, rfl⟩⟩

/-- The only pair of a URL with empty parts is removed. -/
theorem exists_parse_render_of_remove :
    ∃ u v w, Reachable "//@h:/p ?a=1" u ∧ u.render = "//@h:/p " ∧ parse u.render = .ok v ∧
      parse v.render = .ok w ∧ (w == v) = true := by
  have hu : parse "//@h:/p ?a=1" = .ok
      ⟨⟨none, some ⟨some "", .name "h", some ""⟩, "/p "⟩, .ofList [⟨"a", "1"⟩], none⟩ := rfl
  have hr := Reachable.step (.start hu) (.edit (.remove "a" "1"))
  obtain ⟨v, hv, -, -, -, -, -, -, w, hw, hwv⟩ := Reachable.exists_parse_render hr
  exact ⟨_, v, w, hr, by decide, hv, hw, hwv⟩

/-- A URL that was read is read back whole from its text exactly if its path does not end with
    spaces or controls, or a query or a fragment follows the path. -/
theorem exists_parse_render_beq_iff (h : parse s = .ok u) :
    ∃ v, parse u.render = .ok v ∧ ((v == u) = true ↔
      (u.query.toList = [] → u.fragment = none →
        ∀ c ∈ u.path.toList.getLast?, Text.isOuter c = false)) := by
  lift u to WellFormedUrl using wellFormed_of_parse h
  refine ⟨u.reread.toUrl, u.parse_render, ?_⟩
  -- The location is the only part that may be read as another.
  have hl : u.reread.location = u.location ↔
      (u.query.toList = [] ∧ u.fragment = none → u.location.trimEnd = u.location) := by
    change u.toUrl.reread.location = u.location ↔ _
    rw [Url.reread]
    split_ifs with he
    · exact ⟨fun h _ => h, fun h => h he⟩
    · exact ⟨fun _ h => absurd h he, fun _ => rfl⟩
  rw [u.reread.beq_iff u, hl, Location.trimEnd_eq_self_iff, and_imp, path]
  exact ⟨And.left, fun h => ⟨h, Query.toList_ofList _, rfl⟩⟩

/-- A pair behind the path keeps the space at its end. -/
theorem exists_parse_render_beq :
    ∃ u v, parse "/a ?k=1" = .ok u ∧ parse u.render = .ok v ∧ (v == u) = true := by
  obtain ⟨u, hu, hq⟩ : ∃ u, parse "/a ?k=1" = .ok u ∧ u.query.toList ≠ [] :=
    ⟨_, rfl, List.cons_ne_nil _ _⟩
  obtain ⟨v, hv, hvu⟩ := exists_parse_render_beq_iff hu
  exact ⟨u, v, hu, hv, hvu.2 fun he => absurd he hq⟩

/-- The `?` of a query without pairs is not written, and the space before it is lost. -/
theorem exists_parse_render_not_beq :
    ∃ u v, parse "/a ?" = .ok u ∧ parse u.render = .ok v ∧ (v == u) = false :=
  ⟨_, _, rfl, rfl, rfl⟩

end Url

end QueryEdit
