import QueryEdit.Proofs.Text.Clean
import QueryEdit.Text.Cut.Lemmas
import QueryEdit.Url.Location

/-!
# Reading and writing locations

The texts that `Location.parse` reads are those of the *well-formed* locations, and
each is the text of just one of them (`Location.parse_eq_ok_iff`): a location is
written back as it was read, and read back as it was written.

Well-formed are the locations whose parts end where they should: no part holds the
delimiter behind it, and a missing part is not mistaken for a part that is there
(`Location.WellFormed`, and `WellFormedLocation` for a location with the proof). The parts
are read in turn:

* `Host.split?_eq_some_iff`: a host with its port;
* `Authority.wellFormed_of_parse`, `Authority.parse_text`: user information before the last `@`;
* `cutScheme_eq_some_iff`, `cutScheme_eq_none_iff`: the scheme before the first `:`.
-/

namespace QueryEdit

/-! ### Hosts and ports -/

namespace Host

/-- A host holds the characters of its kind. -/
def WellFormed : Host → Prop
  | name s => s.toList.all isNameChar = true
  | address s => isAddress s.toList = true

/-- The text of a port with the `:` that introduces it. -/
def portChars (port : Option (List Char)) : List Char := port.elim [] fun p => ':' :: p

theorem portAfter?_eq_some_iff {s : List Char} {port : Option (List Char)} :
    portAfter? s = some port ↔ portChars port = s := by
  rw [portAfter?.eq_def]
  split
  · cases port <;> simp [portChars]
  · cases port <;> simp [portChars, eq_comm]
  · rename_i h₁ h₂
    cases port with
    | none => simpa [portChars] using Ne.symm h₁
    | some p => simpa [portChars] using fun h => h₂ p h.symm

/-- The brackets of an address are not in it. -/
theorem not_mem_of_isAddress {s : List Char} (h : isAddress s = true) {c : Char}
    (hc : isAddressChar c = false) : c ∉ s := by
  rw [isAddress, Bool.and_eq_true] at h
  exact Text.not_mem_of_all h.2 hc

/-- What is read as a host with a port is the text of both. A port after a name has no `:`. -/
theorem toChars_of_split? {s : List Char} {host : Host} {port : Option (List Char)}
    (h : split? s = some (host, port)) :
    host.WellFormed ∧ (∀ p ∈ port, (∃ n, host = name n) → ':' ∉ p) ∧
      host.toText.toList ++ portChars port = s := by
  rw [split?.eq_def] at h
  split at h
  · rename_i s
    -- An address ends at the first `]`.
    split at h
    · rename_i inner rest hcut
      obtain ⟨rfl, -⟩ := Text.cutFirst_eq_some_iff.1 hcut
      split_ifs at h with hi
      rw [Option.map_eq_some_iff] at h
      obtain ⟨port', hp, he⟩ := h
      cases he
      rw [portAfter?_eq_some_iff] at hp
      refine ⟨by rwa [WellFormed, String.toList_ofList], ?_, ?_⟩
      · rintro _ - ⟨_, ⟨⟩⟩
      · simp [toText, hp]
    · contradiction
  · -- A name ends at the last `:`, or with the text.
    rename_i hs
    cases hcut : Text.cutLast ':' s with
    | mk before after =>
      simp only [hcut] at h
      cases before with
      | none =>
        obtain ⟨rfl, -⟩ := Text.cutLast_eq_none_iff.1 hcut
        split_ifs at h with hn
        cases h
        exact ⟨by rwa [WellFormed, String.toList_ofList],
          fun p hp => absurd hp (Option.not_mem_none p), by simp [toText, portChars]⟩
      | some before =>
        obtain ⟨rfl, hafter⟩ := Text.cutLast_eq_some_iff.1 hcut
        split_ifs at h with hn
        cases h
        refine ⟨by rwa [WellFormed, String.toList_ofList], ?_, by simp [toText, portChars]⟩
        rintro _ ⟨⟩ -
        exact hafter

/-- A host with a port is read back from its text. -/
theorem split?_toChars {host : Host} {port : Option (List Char)} (h : host.WellFormed)
    (hp : ∀ p ∈ port, (∃ n, host = name n) → ':' ∉ p) :
    split? (host.toText.toList ++ portChars port) = some (host, port) := by
  cases host with
  | address s =>
    rw [WellFormed] at h
    have hs : ']' ∉ s.toList := not_mem_of_isAddress h (by decide)
    have ht : (address s).toText.toList ++ portChars port =
        '[' :: (s.toList ++ ']' :: portChars port) := by
      simp [toText]
    rw [ht, split?, Text.cutFirst_append hs]
    simp only
    rw [if_pos h, portAfter?_eq_some_iff.2 rfl, Option.map_some, String.ofList_toList]
  | name s =>
    rw [WellFormed] at h
    have hn : ':' ∉ s.toList := Text.not_mem_of_all h (by decide)
    -- A name is not read as an address, since it does not begin with a bracket.
    have hb : ∀ t, s.toList ++ portChars port ≠ '[' :: t := by
      intro t ht
      cases hs : s.toList with
      | nil => cases port <;> simp [hs, portChars] at ht
      | cons c s' =>
        rw [hs, List.cons_append, List.cons.injEq] at ht
        have hm : '[' ∉ s.toList := Text.not_mem_of_all h (by decide)
        exact hm (hs ▸ ht.1 ▸ List.mem_cons_self)
    rw [toText, split?.eq_def]
    split
    · rename_i t ht
      exact absurd ht (hb t)
    · cases port with
      | none =>
        rw [portChars, Option.elim_none, List.append_nil, Text.cutLast_of_not_mem hn]
        simp only
        rw [if_pos h, String.ofList_toList]
      | some p =>
        rw [portChars, Option.elim_some, Text.cutLast_append (hp p rfl ⟨s, rfl⟩)]
        simp only
        rw [if_pos h, String.ofList_toList]

/-- A text is read as a host with a port exactly if it is the text of both. -/
theorem split?_eq_some_iff {s : List Char} {host : Host} {port : Option (List Char)} :
    split? s = some (host, port) ↔ host.WellFormed ∧
      (∀ p ∈ port, (∃ n, host = name n) → ':' ∉ p) ∧ host.toText.toList ++ portChars port = s :=
  ⟨toChars_of_split?, fun ⟨h, hp, hs⟩ => hs ▸ split?_toChars h hp⟩

/-- The characters of a host with a port. -/
theorem mem_toChars {host : Host} {port : Option (List Char)} (h : host.WellFormed)
    (hp : ∀ p ∈ port, isPort p = true) {c : Char}
    (hc : c ∈ host.toText.toList ++ portChars port) :
    isNameChar c = true ∨ isAddressChar c = true ∨ c.isDigit = true ∨ c ∈ ['[', ']', ':'] := by
  rcases List.mem_append.1 hc with hc | hc
  · cases host with
    | name s => exact .inl (List.all_eq_true.1 h c hc)
    | address s =>
      rw [WellFormed, isAddress, Bool.and_eq_true] at h
      simp only [toText, String.toList_append, List.mem_append] at hc
      rcases hc with (hc | hc) | hc
      · simp_all
      · exact .inr (.inl (List.all_eq_true.1 h.2 c hc))
      · simp_all
  · cases port with
    | none => exact absurd hc List.not_mem_nil
    | some p =>
      have hd := hp p rfl
      rw [isPort, Bool.and_eq_true] at hd
      rw [portChars, Option.elim_some, List.mem_cons] at hc
      rcases hc with rfl | hc
      · simp
      · exact .inr (.inr (.inl (List.all_eq_true.1 hd.1 c hc)))

/-- A character of none of these kinds is not in the text of a host with a port. -/
theorem not_mem_toChars {host : Host} {port : Option (List Char)} (h : host.WellFormed)
    (hp : ∀ p ∈ port, isPort p = true) {c : Char} (h₁ : isNameChar c = false)
    (h₂ : isAddressChar c = false) (h₃ : c.isDigit = false) (h₄ : c ∉ ['[', ']', ':']) :
    c ∉ host.toText.toList ++ portChars port := by
  intro hc
  rcases mem_toChars h hp hc with h | h | h | h
  · rw [h] at h₁; contradiction
  · rw [h] at h₂; contradiction
  · rw [h] at h₃; contradiction
  · exact h₄ h

/-- Outer characters are not in the text of a host with a port. -/
theorem isOuter_of_mem_toChars {host : Host} {port : Option (List Char)} (h : host.WellFormed)
    (hp : ∀ p ∈ port, isPort p = true) :
    ∀ c ∈ host.toText.toList ++ portChars port, Text.isOuter c = false := by
  intro c hc
  rcases mem_toChars h hp hc with h | h | h | h
  · exact Text.isOuter_eq_false (by decide) h
  · exact Text.isOuter_eq_false (by decide) h
  · exact Text.isOuter_eq_false (by decide) h
  · exact Text.isOuter_eq_false (p := fun c => decide (c ∈ ['[', ']', ':'])) (by decide)
      (decide_eq_true h)

end Host

/-! ### Authorities -/

namespace Authority

/-- The host and the port hold the characters that they may hold. -/
structure WellFormed (a : Authority) : Prop where
  host : a.host.WellFormed
  port : ∀ p ∈ a.port, isPort p.toList = true

/-- The text of an authority behind the `//` that introduces it. -/
def text (a : Authority) : List Char :=
  (a.userinfo.elim [] fun u => u.toList ++ ['@']) ++
    (a.host.toText.toList ++ Host.portChars (a.port.map String.toList))

theorem toChars_eq (a : Authority) : a.toChars = '/' :: '/' :: a.text := by
  cases hp : a.port <;> simp [toChars, text, Host.portChars, hp]

theorem WellFormed.isPort {a : Authority} (h : a.WellFormed) :
    ∀ p ∈ a.port.map String.toList, isPort p = true := by
  intro p hp
  obtain ⟨p', hp', rfl⟩ := Option.map_eq_some_iff.1 hp
  exact h.port p' hp'

/-- The last `@` of an authority is the one behind its user information. -/
theorem cutLast_text {a : Authority} (h : a.WellFormed) :
    Text.cutLast '@' a.text = (a.userinfo.map String.toList,
      a.host.toText.toList ++ Host.portChars (a.port.map String.toList)) := by
  have hm : '@' ∉ a.host.toText.toList ++ Host.portChars (a.port.map String.toList) :=
    Host.not_mem_toChars h.host h.isPort (by decide) (by decide) (by decide) (by decide)
  rw [text]
  cases a.userinfo with
  | none => exact Text.cutLast_of_not_mem hm
  | some u =>
    rw [Option.elim_some, List.append_assoc]
    exact Text.cutLast_append hm

section Reading

variable {hostNeeded : Bool} {s rest : List Char} {userinfo : Option (List Char)}

theorem parse_of_split?_none (hc : Text.cutLast '@' s = (userinfo, rest))
    (hh : Host.split? rest = none) : parse hostNeeded s = .error .invalidHost := by
  simp only [parse, hc, hh]

/-- Once a host is found behind the last `@`, it decides if a host is needed, and else the port. -/
theorem parse_of_split?_some {host : Host} {port : Option (List Char)}
    (hc : Text.cutLast '@' s = (userinfo, rest)) (hh : Host.split? rest = some (host, port)) :
    parse hostNeeded s =
      if hostNeeded = true → host ≠ .name "" then
        if port.all QueryEdit.isPort then
          .ok ⟨userinfo.map String.ofList, host, port.map String.ofList⟩
        else .error .invalidPort
      else .error .invalidHost := by
  have hn : (hostNeeded && host == .name "") = true ↔ ¬(hostNeeded = true → host ≠ .name "") := by
    rw [Bool.and_eq_true, beq_iff_eq, Classical.not_imp, not_not]
  simp only [parse, hc, hh, hn, ite_not]

end Reading

/-- What is read as an authority is its text, and the authority is well-formed. -/
theorem wellFormed_of_parse {hostNeeded : Bool} {s : List Char} {a : Authority}
    (h : parse hostNeeded s = .ok a) :
    a.WellFormed ∧ (hostNeeded = true → a.host ≠ .name "") ∧ a.text = s := by
  rcases hcut : Text.cutLast '@' s with ⟨userinfo, rest⟩
  -- What stands before the last `@` and behind it is the whole text.
  have hs : (userinfo.elim [] fun u => u ++ ['@']) ++ rest = s := by
    cases userinfo with
    | none => exact (Text.cutLast_eq_none_iff.1 hcut).1
    | some u => simp [(Text.cutLast_eq_some_iff.1 hcut).1]
  cases hsplit : Host.split? rest with
  | none =>
    rw [parse_of_split?_none hcut hsplit] at h
    cases h
  | some x =>
    obtain ⟨host, port⟩ := x
    obtain ⟨hw, -, hrest⟩ := Host.toChars_of_split? hsplit
    rw [parse_of_split?_some hcut hsplit] at h
    split_ifs at h with hneed hp
    cases h
    refine ⟨⟨hw, fun p hp' => ?_⟩, hneed, ?_⟩
    · obtain ⟨p', rfl, rfl⟩ := Option.map_eq_some_iff.1 hp'
      rw [String.toList_ofList]
      exact hp
    · rw [text, ← hs, ← hrest]
      cases userinfo <;> cases port <;> simp [Host.portChars]

/-- A well-formed authority is read back from its text. -/
theorem parse_text {hostNeeded : Bool} {a : Authority} (h : a.WellFormed)
    (hn : hostNeeded = true → a.host ≠ .name "") : parse hostNeeded a.text = .ok a := by
  have hp : ∀ p ∈ a.port.map String.toList, ':' ∉ p := by
    intro p hp
    have hd := h.isPort p hp
    rw [QueryEdit.isPort, Bool.and_eq_true] at hd
    exact Text.not_mem_of_all hd.1 (by decide)
  have hport : (a.port.map String.toList).all QueryEdit.isPort = true :=
    Option.all_eq_true _ _ |>.2 h.isPort
  rw [parse_of_split?_some (cutLast_text h) (Host.split?_toChars h.host fun p hm _ => hp p hm),
    if_pos hn, if_pos hport]
  cases a
  simp [Function.comp_def]

/-- The text of an authority does not end with an outer character. -/
theorem isOuter_getLast?_toChars {a : Authority} (h : a.WellFormed) :
    ∀ c ∈ a.toChars.getLast?, Text.isOuter c = false := by
  -- It ends with the host and the port, or else with the `@` or the `//` before them.
  have ht : a.toChars = ['/', '/'] ++ ((a.userinfo.elim [] fun u => u.toList ++ ['@']) ++
      (a.host.toText.toList ++ Host.portChars (a.port.map String.toList))) := toChars_eq a
  rw [ht]
  refine Text.forall_getLast?_append ?_ (Text.forall_getLast?_append ?_ ?_)
  · rintro _ ⟨⟩
    rfl
  · cases a.userinfo with
    | none => exact fun c hc => absurd hc (Option.not_mem_none c)
    | some u =>
      rw [Option.elim_some, List.getLast?_concat]
      rintro _ ⟨⟩
      rfl
  · exact fun c hc => Host.isOuter_of_mem_toChars h.host h.isPort c (List.mem_of_mem_getLast? hc)

end Authority

/-! ### Schemes -/

section Schemes

variable {s a b : List Char}

theorem cutScheme_append (h : ':' ∉ a) :
    cutScheme (a ++ ':' :: b) = if '/' ∈ a then (none, a ++ ':' :: b) else (some a, b) := by
  rw [cutScheme, Text.cutFirst_append h]
  simp only [List.contains_iff_mem]

theorem cutScheme_of_not_mem (h : ':' ∉ s) : cutScheme s = (none, s) := by
  rw [cutScheme, Text.cutFirst_of_not_mem h]

/-- A scheme is cut off at the first `:` if no `/` comes before it. -/
theorem cutScheme_eq_some_iff :
    cutScheme s = (some a, b) ↔ s = a ++ ':' :: b ∧ ':' ∉ a ∧ '/' ∉ a := by
  refine ⟨fun h => ?_, fun ⟨hs, hc, hm⟩ => by rw [hs, cutScheme_append hc, if_neg hm]⟩
  by_cases hs : ':' ∈ s
  · obtain ⟨u, v, rfl, hu⟩ := List.eq_append_cons_of_mem hs
    rw [cutScheme_append hu] at h
    split_ifs at h with hm
    · cases h
    · cases h
      exact ⟨rfl, hu, hm⟩
  · rw [cutScheme_of_not_mem hs] at h
    cases h

/-- No scheme is cut off if a `/` comes before every `:`. -/
theorem cutScheme_eq_none_iff :
    cutScheme s = (none, b) ↔ b = s ∧ ∀ u v, s = u ++ ':' :: v → '/' ∈ u := by
  refine ⟨fun h => ?_, fun ⟨hb, hs⟩ => ?_⟩
  · by_cases hs : ':' ∈ s
    · obtain ⟨x, y, rfl, hx⟩ := List.eq_append_cons_of_mem hs
      rw [cutScheme_append hx] at h
      by_cases hm : '/' ∈ x
      · rw [if_pos hm] at h
        cases h
        refine ⟨rfl, fun u v huv => ?_⟩
        -- The text before the first `:` begins the text before any other.
        rcases List.append_eq_append_iff.1 huv with ⟨w, rfl, -⟩ | ⟨w, rfl, hw⟩
        · exact List.mem_append_left _ hm
        · cases w with
          | nil => rwa [List.append_nil] at hm
          | cons d w =>
            rw [List.cons_append, List.cons.injEq] at hw
            exact absurd (hw.1 ▸ by simp) hx
      · rw [if_neg hm] at h
        cases h
    · rw [cutScheme_of_not_mem hs] at h
      cases h
      exact ⟨rfl, fun u v huv => absurd (huv ▸ by simp) hs⟩
  · by_cases hc : ':' ∈ s
    · obtain ⟨x, y, rfl, hx⟩ := List.eq_append_cons_of_mem hc
      rw [cutScheme_append hx, if_pos (hs x y rfl), hb]
    · rw [cutScheme_of_not_mem hc, hb]

end Schemes

/-! ### Locations -/

namespace Location

variable {l : Location}

/-- The parts of a location are well-formed, and each ends where reading ends it. -/
structure WellFormed (l : Location) : Prop where
  scheme : ∀ s ∈ l.scheme, isScheme s.toList = true
  authority : ∀ a ∈ l.authority, a.WellFormed
  /-- A scheme that needs a host has one that is not empty. -/
  host : ∀ s ∈ l.scheme, needsHost s.toList = true → ∃ a ∈ l.authority, a.host ≠ .name ""
  /-- Without a scheme, a `/` comes before every `:`. -/
  of_scheme_eq_none : l.scheme = none → ∀ u v, l.toChars = u ++ ':' :: v → '/' ∈ u
  /-- Without an authority, the path does not begin like one. -/
  of_authority_eq_none : l.authority = none → ∀ r, l.path.toList ≠ '/' :: '/' :: r
  /-- An authority ends with the text, or at the `/` that begins the path. -/
  slash : ∀ a ∈ l.authority, '/' ∉ a.text ∧ ∀ c ∈ l.path.toList.head?, c = '/'

/-- The text of a location behind its scheme. -/
def afterScheme (l : Location) : List Char :=
  l.authority.elim [] Authority.toChars ++ l.path.toList

theorem toChars_eq (l : Location) :
    l.toChars = (l.scheme.elim [] fun s => s.toList ++ [':']) ++ l.afterScheme :=
  List.append_assoc _ _ _

/-! The three ways in which a text is read. -/

section Read

variable {s rest : List Char} {scheme : Option (List Char)}

/-- What stands for a scheme must be one. -/
theorem parse_of_not_isScheme (hc : cutScheme s = (scheme, rest))
    (h : scheme.all isScheme = false) : parse s = .error .invalidScheme := by
  simp [parse, hc, h]

/-- Behind `//` an authority is read, up to the next `/`. -/
theorem parse_of_authority (hc : cutScheme s = (scheme, '/' :: '/' :: rest))
    (h : scheme.all isScheme = true) :
    parse s = (Authority.parse (scheme.any needsHost) (rest.takeWhile (· != '/'))).map
      fun a => ⟨scheme.map String.ofList, some a, String.ofList (rest.dropWhile (· != '/'))⟩ := by
  simp [parse, hc, h]

/-- Without `//` everything behind the scheme is the path. -/
theorem parse_of_path (hc : cutScheme s = (scheme, rest)) (h : scheme.all isScheme = true)
    (hr : ∀ r, rest ≠ '/' :: '/' :: r) :
    parse s = if scheme.any needsHost then .error .invalidHost
      else .ok ⟨scheme.map String.ofList, none, String.ofList rest⟩ := by
  simp only [parse, hc, h, Bool.not_true, Bool.false_eq_true, if_false]

end Read

/-- What is cut off as the scheme is written before the rest with a `:`. -/
theorem eq_of_cutScheme {s rest : List Char} {scheme : Option (List Char)}
    (hc : cutScheme s = (scheme, rest)) : (scheme.elim [] fun x => x ++ [':']) ++ rest = s := by
  cases scheme with
  | none => exact (cutScheme_eq_none_iff.1 hc).1
  | some x => simp [(cutScheme_eq_some_iff.1 hc).1]

/-- What is cut off as the scheme, once it is one, is well-formed as a scheme or its absence. -/
theorem scheme_of_cutScheme {s rest : List Char} {scheme : Option (List Char)}
    (hc : cutScheme s = (scheme, rest)) (hs : scheme.all isScheme = true) :
    (∀ x ∈ scheme.map String.ofList, isScheme x.toList = true) ∧
      (scheme.map String.ofList = none → ∀ u v, s = u ++ ':' :: v → '/' ∈ u) := by
  refine ⟨fun x hx => ?_, fun hn => ?_⟩
  · obtain ⟨y, rfl, rfl⟩ := Option.map_eq_some_iff.1 hx
    rwa [String.toList_ofList]
  · rw [Option.map_eq_none_iff] at hn
    exact (cutScheme_eq_none_iff.1 (hn ▸ hc)).2

/-- A text with an authority is read as a well-formed location with this text. -/
theorem wellFormed_of_authority {s r : List Char} {scheme : Option (List Char)} {a : Authority}
    (hc : cutScheme s = (scheme, '/' :: '/' :: r)) (hs : scheme.all isScheme = true)
    (ha : Authority.parse (scheme.any needsHost) (r.takeWhile (· != '/')) = .ok a)
    (hl : l = ⟨scheme.map String.ofList, some a, String.ofList (r.dropWhile (· != '/'))⟩) :
    l.WellFormed ∧ l.toChars = s := by
  obtain ⟨hscheme, hnone⟩ := scheme_of_cutScheme hc hs
  obtain ⟨hw, hneed, ht⟩ := Authority.wellFormed_of_parse ha
  have htext : l.toChars = s := by
    rw [← eq_of_cutScheme hc, hl, toChars_eq, afterScheme, Option.elim_some, Authority.toChars_eq,
      ht, String.toList_ofList, List.cons_append, List.cons_append,
      List.takeWhile_append_dropWhile]
    cases scheme <;> simp
  subst hl
  refine ⟨⟨hscheme, ?_, fun x hx hxneed => ?_, fun hn => htext ▸ hnone hn, ?_, ?_⟩, htext⟩
  · rintro _ ⟨⟩
    exact hw
  · obtain ⟨y, rfl, rfl⟩ := Option.map_eq_some_iff.1 hx
    exact ⟨a, rfl, hneed (by rwa [String.toList_ofList] at hxneed)⟩
  · exact fun hn => absurd hn (Option.some_ne_none a)
  · -- The authority was scanned up to the first `/`, where the path begins.
    rintro _ ⟨⟩
    refine ⟨fun hm => ?_, fun c hcp => ?_⟩
    · rw [ht] at hm
      exact Text.not_mem_takeWhile '/' r hm
    · rw [String.toList_ofList] at hcp
      exact Text.eq_of_mem_head?_dropWhile c hcp

/-- A text without an authority is read as a well-formed location with this text. -/
theorem wellFormed_of_path {s rest : List Char} {scheme : Option (List Char)}
    (hc : cutScheme s = (scheme, rest)) (hs : scheme.all isScheme = true)
    (hr : ∀ r, rest ≠ '/' :: '/' :: r) (hn : ¬scheme.any needsHost = true)
    (hl : l = ⟨scheme.map String.ofList, none, String.ofList rest⟩) :
    l.WellFormed ∧ l.toChars = s := by
  obtain ⟨hscheme, hnone⟩ := scheme_of_cutScheme hc hs
  have htext : l.toChars = s := by
    rw [← eq_of_cutScheme hc, hl, toChars_eq, afterScheme, Option.elim_none, String.toList_ofList,
      List.nil_append]
    cases scheme <;> simp
  subst hl
  refine ⟨⟨hscheme, ?_, fun x hx hxneed => ?_, fun hn => htext ▸ hnone hn, ?_, ?_⟩, htext⟩
  · rintro _ ⟨⟩
  · obtain ⟨y, rfl, rfl⟩ := Option.map_eq_some_iff.1 hx
    rw [String.toList_ofList] at hxneed
    exact absurd hxneed hn
  · rintro - r
    rw [String.toList_ofList]
    exact hr r
  · rintro _ ⟨⟩

/-- What is read as a location is its text, and the location is well-formed. -/
theorem wellFormed_of_parse {s : List Char} (h : parse s = .ok l) :
    l.WellFormed ∧ l.toChars = s := by
  rcases hc : cutScheme s with ⟨scheme, rest⟩
  cases hs : scheme.all isScheme with
  | false =>
    rw [parse_of_not_isScheme hc hs] at h
    cases h
  | true =>
    by_cases hr : ∃ r, rest = '/' :: '/' :: r
    · obtain ⟨r, rfl⟩ := hr
      rw [parse_of_authority hc hs] at h
      cases ha : Authority.parse (scheme.any needsHost) (r.takeWhile (· != '/')) with
      | error e => rw [ha] at h; cases h
      | ok a =>
        rw [ha] at h
        cases h
        exact wellFormed_of_authority hc hs ha rfl
    · push Not at hr
      rw [parse_of_path hc hs hr] at h
      split_ifs at h with hn
      cases h
      exact wellFormed_of_path hc hs hr hn rfl

/-- Schemes hold neither `:` nor `/`. -/
theorem not_mem_of_isScheme {s : List Char} (h : isScheme s = true) {c : Char}
    (h₁ : c.isAlpha = false) (h₂ : isSchemeChar c = false) : c ∉ s := by
  cases s with
  | nil => exact List.not_mem_nil
  | cons d s =>
    rw [isScheme, Bool.and_eq_true] at h
    intro hm
    rcases List.mem_cons.1 hm with rfl | hm
    · rw [h.1] at h₁
      contradiction
    · rw [List.all_eq_true.1 h.2 c hm] at h₂
      contradiction

end Location

/-- A location together with the proof that it is well-formed. -/
structure WellFormedLocation extends Location where
  wellFormed : toLocation.WellFormed

namespace WellFormedLocation

variable (l : WellFormedLocation)

/-- What is cut off as the scheme of a well-formed location is its scheme. -/
theorem cutScheme_toChars :
    cutScheme l.toChars = (l.scheme.map String.toList, l.afterScheme) := by
  cases hs : l.scheme with
  | none =>
    have ht : l.toChars = l.afterScheme := by
      rw [Location.toChars_eq, hs, Option.elim_none, List.nil_append]
    exact cutScheme_eq_none_iff.2 ⟨ht.symm, l.wellFormed.of_scheme_eq_none hs⟩
  | some x =>
    have hx := l.wellFormed.scheme x hs
    rw [Location.toChars_eq, hs, Option.elim_some, List.append_assoc]
    exact cutScheme_eq_some_iff.2 ⟨rfl, Location.not_mem_of_isScheme hx (by decide) (by decide),
      Location.not_mem_of_isScheme hx (by decide) (by decide)⟩

/-- The scheme, if there is one, is read as a scheme. -/
theorem all_isScheme : (l.scheme.map String.toList).all isScheme = true := by
  refine Option.all_eq_true _ _ |>.2 fun x hx => ?_
  obtain ⟨y, hy, rfl⟩ := Option.map_eq_some_iff.1 hx
  exact l.wellFormed.scheme y hy

/-- There is a host where the scheme needs one. -/
theorem exists_host (hn : (l.scheme.map String.toList).any needsHost = true) :
    ∃ a ∈ l.authority, a.host ≠ .name "" := by
  obtain ⟨x, hx, hxneed⟩ := Option.any_eq_true _ _ |>.1 hn
  obtain ⟨y, hy, rfl⟩ := Option.map_eq_some_iff.1 hx
  exact l.wellFormed.host y hy hxneed

/-- A well-formed location is read back from its text. -/
theorem parse_toChars : Location.parse l.toChars = .ok l.toLocation := by
  have hc := l.cutScheme_toChars
  have hback : (l.scheme.map String.toList).map String.ofList = l.scheme := by
    cases l.scheme <;> simp
  cases ha : l.authority with
  | none =>
    rw [Location.afterScheme, ha, Option.elim_none, List.nil_append] at hc
    have hneed : ¬(l.scheme.map String.toList).any needsHost = true := by
      intro hn
      obtain ⟨a, ha', -⟩ := l.exists_host hn
      rw [ha] at ha'
      cases ha'
    rw [Location.parse_of_path hc l.all_isScheme (l.wellFormed.of_authority_eq_none ha),
      if_neg hneed, hback, String.ofList_toList, ← ha]
  | some a =>
    rw [Location.afterScheme, ha, Option.elim_some, Authority.toChars_eq, List.cons_append,
      List.cons_append] at hc
    -- The authority goes up to the `/` that begins the path.
    obtain ⟨hslash, hpath⟩ := l.wellFormed.slash a ha
    have hin : ∀ c ∈ a.text, (c != '/') = true := fun c hm =>
      bne_iff_ne.2 fun e => hslash (e ▸ hm)
    have hhead : ∀ c ∈ l.path.toList.head?, (c != '/') = false := fun c hm => by
      rw [hpath c hm, bne_self_eq_false]
    have hparse : Authority.parse ((l.scheme.map String.toList).any needsHost) a.text = .ok a := by
      refine Authority.parse_text (l.wellFormed.authority a ha) fun hn => ?_
      obtain ⟨a', ha', hne⟩ := l.exists_host hn
      rw [ha] at ha'
      cases ha'
      exact hne
    rw [Location.parse_of_authority hc l.all_isScheme, Text.takeWhile_append_of_head? hin hhead,
      Text.dropWhile_append_of_head? hin hhead, hparse, hback, String.ofList_toList]
    have hl : (⟨l.scheme, some a, l.path⟩ : Location) = l.toLocation := by rw [← ha]
    exact congrArg Except.ok hl

end WellFormedLocation

/-- A text is read as a location exactly if the location is well-formed and has this text. -/
theorem Location.parse_eq_ok_iff {s : List Char} {l : Location} :
    parse s = .ok l ↔ l.WellFormed ∧ l.toChars = s :=
  ⟨wellFormed_of_parse, fun ⟨h, hs⟩ => hs ▸ WellFormedLocation.parse_toChars ⟨l, h⟩⟩

end QueryEdit
