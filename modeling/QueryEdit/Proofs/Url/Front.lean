import QueryEdit.Proofs.Url.Grammar

/-!
# The front of a URL

The front of a text is what stands before its first `?` and its first `#`. The location of a
URL is read from the front alone (`Url.map_location_parse`), and what follows the front does
not run into it: a text without delimiters stays the front of all texts that it begins, if
it does not end with an outer character, which cleaning would drop if nothing followed
(`Url.front_append`).

So two texts with the same front are read alike but for the query and the fragment,
whatever these hold (`Url.agreeInFront_parse_append`).
-/

namespace QueryEdit.Url

/-- What may follow the front: nothing, or a text that begins with `?` or `#`. -/
def IsTail (t : String) : Prop := ∀ c ∈ t.toList.head?, c = '?' ∨ c = '#'

/-- Two texts are refused for the same reason, or are read as URLs that differ in the query and
    the fragment at most. -/
inductive AgreeInFront : Except UrlError Url → Except UrlError Url → Prop
  | error (e : UrlError) : AgreeInFront (.error e) (.error e)
  | ok {u v : Url} : u.scheme = v.scheme → u.userinfo = v.userinfo → u.host = v.host →
      u.port = v.port → u.path = v.path → AgreeInFront (.ok u) (.ok v)

variable {p t x y : String}

/-- The location is read from the front alone. -/
theorem map_location_parse (s : String) : (parse s).map location = Location.parse (front s) := by
  rw [parse_eq_map]
  cases Location.parse (front s) <;> rfl

/-- Texts with one location agree but for the query and the fragment. -/
theorem AgreeInFront.of_map_location {r r' : Except UrlError Url}
    (h : r.map location = r'.map location) : AgreeInFront r r' := by
  cases r with
  | error e =>
    cases r' with
    | error e' =>
      cases h
      exact .error e
    | ok v => cases h
  | ok u =>
    cases r' with
    | error e' => cases h
    | ok v =>
      have hl : u.location = v.location := Except.ok.inj h
      refine .ok ?_ ?_ ?_ ?_ ?_
      · rw [scheme, scheme, hl]
      · rw [userinfo, userinfo, hl]
      · rw [host, host, hl]
      · rw [port, port, hl]
      · rw [path, path, hl]

/-- A text without delimiters is the front of all texts that it begins. -/
theorem front_append (hp : '?' ∉ p.toList ∧ '#' ∉ p.toList)
    (hlast : ∀ c ∈ p.toList.getLast?, 0x20 < c.toNat) (ht : IsTail t) :
    front (p ++ t) = Text.cleanChars p.toList := by
  have hpe : ∀ c ∈ p.toList.getLast?, Text.isOuter c = false := fun c hc =>
    decide_eq_false (Nat.not_le.2 (hlast c hc))
  have hth : ∀ c ∈ t.toList.head?, Text.isOuter c = false := by
    intro c hc
    rcases ht c hc with rfl | rfl <;> decide
  rw [front, body, String.toList_append, Text.cleanChars_append_of_ends hpe hth,
    List.takeWhile_takeWhile]
  -- The scan passes all of `p`, and stops where the tail begins.
  refine Text.takeWhile_append_of_head? (fun c hc => ?_) fun c hc => ?_
  · have hm := Text.mem_of_mem_cleanChars hc
    have h₁ : c ≠ '?' := fun e => hp.1 (e ▸ hm)
    have h₂ : c ≠ '#' := fun e => hp.2 (e ▸ hm)
    simp [h₁, h₂]
  · rw [Text.head?_cleanChars hth] at hc
    rcases ht c hc with rfl | rfl <;> rfl

/-- Behind a front, neither a query nor a fragment has a part in how the front is read. -/
theorem agreeInFront_parse_append (hp : '?' ∉ p.toList ∧ '#' ∉ p.toList)
    (hlast : ∀ c ∈ p.toList.getLast?, 0x20 < c.toNat) (hx : IsTail x) (hy : IsTail y) :
    AgreeInFront (parse (p ++ x)) (parse (p ++ y)) := by
  refine .of_map_location ?_
  rw [map_location_parse, map_location_parse, front_append hp hlast hx, front_append hp hlast hy]

/-- What looks like an authority or a port behind the front is not taken for one. -/
theorem agreeInFront_parse_append_authority :
    ∃ u v, parse (" ws://u@h:/p:\tq" ++ "?//x@[y]:8\n") = .ok u ∧
      parse (" ws://u@h:/p:\tq" ++ "#@?:") = .ok v ∧
      u.host = some "h" ∧ u.host = v.host ∧ u.path = "/p:q" ∧ u.path = v.path := by
  have hlast : ∀ c ∈ " ws://u@h:/p:\tq".toList.getLast?, 0x20 < c.toNat := by
    rintro _ ⟨⟩
    decide
  have hx : IsTail "?//x@[y]:8\n" := by
    rintro _ ⟨⟩
    exact .inl rfl
  have hy : IsTail "#@?:" := by
    rintro _ ⟨⟩
    exact .inr rfl
  obtain ⟨u, hu, hhost, hpath⟩ : ∃ u, parse (" ws://u@h:/p:\tq" ++ "?//x@[y]:8\n") = .ok u ∧
      u.host = some "h" ∧ u.path = "/p:q" := ⟨_, rfl, by decide, by decide⟩
  obtain ⟨v, hv⟩ : ∃ v, parse (" ws://u@h:/p:\tq" ++ "#@?:") = .ok v := ⟨_, rfl⟩
  have h := agreeInFront_parse_append (by decide) hlast hx hy
  rw [hu, hv] at h
  cases h with
  | ok _ _ hh _ hp => exact ⟨u, v, hu, hv, hhost, hh, hpath, hp⟩

end QueryEdit.Url
