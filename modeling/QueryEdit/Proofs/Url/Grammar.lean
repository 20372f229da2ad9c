import Mathlib.Data.List.Forall2
import Mathlib.Data.List.Induction
import Mathlib.Data.Nat.Digits.Defs
import QueryEdit.Proofs.Url.Text

/-!
# The grammar of URLs

Which texts are URLs, and where the parts of a URL stand in its text, is said here by the
delimiters and the characters between them:

* `Grammar`: the words of a URL, which are schemes, names, addresses and ports;
* `Host.Spells`, `Authority.Spells`, `Location.Spells`: the host, the authority and the
  location that a text spells.

What the searches for first and last delimiters find is what these say, and a text is
refused for the first part that is not spelled (`Location.parse_eq_ok_iff_spells`,
`Location.parse_eq_invalidHost_iff`). Ports come last: a text that spells a location but for
its port spells one with any text for a port, so the relations are given what ports are.
-/

namespace QueryEdit

/-! ### Words -/

namespace Grammar

/-- A letter of ASCII. -/
def IsLetter (c : Char) : Prop := ('a' ≤ c ∧ c ≤ 'z') ∨ ('A' ≤ c ∧ c ≤ 'Z')

/-- A decimal digit of ASCII. -/
def IsDigit (c : Char) : Prop := '0' ≤ c ∧ c ≤ '9'

/-- A hexadecimal digit, in a letter of either case. -/
def IsHexDigit (c : Char) : Prop := IsDigit c ∨ ('a' ≤ c ∧ c ≤ 'f') ∨ ('A' ≤ c ∧ c ≤ 'F')

/-- A letter, and then letters, digits, `+`, `-` and `.`. -/
inductive IsScheme : List Char → Prop
  | cons {c : Char} {s : List Char} : IsLetter c →
      (∀ d ∈ s, IsLetter d ∨ IsDigit d ∨ d ∈ ['+', '-', '.']) → IsScheme (c :: s)

/-- One of the schemes that need a host, in letters of either case. -/
def NeedsHost (scheme : List Char) : Prop :=
  ∃ w ∈ ["http", "https", "ws", "wss", "ftp"],
    List.Forall₂ (fun c d => c = d ∨ c = d.toUpper) scheme w.toList

/-- Letters, digits, some punctuation and any characters outside ASCII. -/
def IsName (s : List Char) : Prop :=
  ∀ c ∈ s, IsLetter c ∨ IsDigit c ∨ c ∈ "-._~!$&'()*+,;=%".toList ∨ 0x80 ≤ c.toNat

/-- Hexadecimal digits, `:` and `.`, with at least one `:`. -/
def IsAddress (s : List Char) : Prop := ':' ∈ s ∧ ∀ c ∈ s, IsHexDigit c ∨ c = ':' ∨ c = '.'

/-- Digits of a number up to 65535, or nothing. -/
def IsPort (s : List Char) : Prop :=
  (∀ c ∈ s, IsDigit c) ∧ Nat.ofDigits 10 (s.reverse.map fun c => c.toNat - '0'.toNat) ≤ 65535

variable {c : Char} {s : List Char}

theorem isAlpha_iff : c.isAlpha = true ↔ IsLetter c :=
  calc c.isAlpha = true
    _ ↔ c.isUpper = true ∨ c.isLower = true := Bool.or_eq_true_iff
    _ ↔ ('A' ≤ c ∧ c ≤ 'Z') ∨ ('a' ≤ c ∧ c ≤ 'z') :=
      or_congr decide_eq_true_iff <| Bool.and_eq_true_iff.trans <|
        and_congr decide_eq_true_iff decide_eq_true_iff
    _ ↔ IsLetter c := or_comm

theorem isDigit_iff : c.isDigit = true ↔ IsDigit c := by
  simp [Char.isDigit, IsDigit, Char.le_def]

/-- Schemes are told by their characters. -/
theorem isScheme_iff : QueryEdit.isScheme s = true ↔ IsScheme s := by
  cases s with
  | nil => exact iff_of_false Bool.false_ne_true (by rintro ⟨⟩)
  | cons c s =>
    have hc : ∀ d, isSchemeChar d = true ↔ IsLetter d ∨ IsDigit d ∨ d ∈ ['+', '-', '.'] := by
      simp [isSchemeChar, Char.isAlphanum, isAlpha_iff, isDigit_iff, or_assoc]
    rw [QueryEdit.isScheme, Bool.and_eq_true, isAlpha_iff, List.all_eq_true]
    simp only [hc]
    constructor
    · rintro ⟨hc, hs⟩
      exact .cons hc hs
    · rintro ⟨hc, hs⟩
      exact ⟨hc, hs⟩

/-- Upper-case letters are made lower-case, and all other characters stay. -/
theorem toLower_eq_iff {d : Char} (hd : 'a' ≤ d ∧ d ≤ 'z') :
    c.toLower = d ↔ c = d ∨ c = d.toUpper := by
  have hd' : 97 ≤ d.val.toNat ∧ d.val.toNat ≤ 122 := hd
  have hup : ('A'.val - 'a'.val).toNat = 2 ^ 32 - 32 := by decide
  have hlow : ('a'.val - 'A'.val).toNat = 32 := by decide
  have hu : d.toUpper.val.toNat = d.val.toNat - 32 := by
    have h : 'a'.val ≤ d.val ∧ d.val ≤ 'z'.val := hd
    have hv : d.toUpper = ⟨d.val + ('A'.val - 'a'.val), _⟩ := dif_pos h
    rw [hv, UInt32.toNat_add]
    omega
  simp only [Char.ext_iff, ← UInt32.toNat_inj, hu]
  by_cases h : c.val ≥ 'A'.val ∧ c.val ≤ 'Z'.val
  · have hc : 65 ≤ c.val.toNat ∧ c.val.toNat ≤ 90 := h
    have hv : c.toLower = ⟨c.val + ('a'.val - 'A'.val), _⟩ := dif_pos h
    rw [hv, UInt32.toNat_add]
    omega
  · have hc : ¬(65 ≤ c.val.toNat ∧ c.val.toNat ≤ 90) := h
    have hl : c.toLower = c := dif_neg h
    rw [hl]
    omega

/-- A text is a word in letters of either case if it is the word in lower-case letters. -/
theorem map_toLower_eq_iff {w : List Char} (hw : ∀ d ∈ w, 'a' ≤ d ∧ d ≤ 'z') :
    s.map Char.toLower = w ↔ List.Forall₂ (fun c d => c = d ∨ c = d.toUpper) s w := by
  induction s generalizing w with
  | nil => cases w <;> simp
  | cons c s ih =>
    cases w with
    | nil => simp
    | cons d w =>
      rw [List.forall_mem_cons] at hw
      rw [List.map_cons, List.cons.injEq, List.forall₂_cons, toLower_eq_iff hw.1, ih hw.2]

/-- Whether a scheme needs a host does not depend on the case of its letters. -/
theorem needsHost_iff : QueryEdit.needsHost s = true ↔ NeedsHost s := by
  have hlow : ∀ w ∈ hostSchemes, ∀ d ∈ w.toList, 'a' ≤ d ∧ d ≤ 'z' := by simp [hostSchemes]
  rw [QueryEdit.needsHost, List.contains_iff_mem]
  constructor
  · intro h
    refine ⟨_, h, (map_toLower_eq_iff (hlow _ h)).1 ?_⟩
    rw [String.toList_ofList]
  · rintro ⟨w, hw, h⟩
    rwa [(map_toLower_eq_iff (hlow w hw)).2 h, String.ofList_toList]

theorem isName_iff : s.all Host.isNameChar = true ↔ IsName s := by
  rw [List.all_eq_true, IsName]
  refine forall₂_congr fun c _ => ?_
  simp [Host.isNameChar, Char.isAlphanum, isAlpha_iff, isDigit_iff, or_assoc]

theorem isAddress_iff : Host.isAddress s = true ↔ IsAddress s := by
  simp [Host.isAddress, IsAddress, Host.isAddressChar, IsHexDigit, isDigit_iff, or_assoc]

/-- Digits are read as a number from the last one on. -/
theorem ofDigitChars_eq (s : List Char) :
    Nat.ofDigitChars 10 s 0 = Nat.ofDigits 10 (s.reverse.map fun c => c.toNat - '0'.toNat) := by
  induction s using List.reverseRecOn with
  | nil => rfl
  | append_singleton s c ih =>
    rw [Nat.ofDigitChars_append, ih, Nat.ofDigitChars_cons, Nat.ofDigitChars_nil,
      List.reverse_append, List.reverse_singleton, List.singleton_append, List.map_cons,
      Nat.ofDigits_cons, Nat.add_comm]

/-- Ports are told by their digits and their number. -/
theorem isPort_iff : QueryEdit.isPort s = true ↔ IsPort s := by
  simp [QueryEdit.isPort, IsPort, isDigit_iff, ofDigitChars_eq]

theorem all_isPort_iff {port : Option (List Char)} :
    port.all QueryEdit.isPort = true ↔ ∀ p ∈ port, IsPort p := by
  simp only [Option.all_eq_true, isPort_iff, Option.mem_def]

end Grammar

open Grammar

variable {P : List Char → Prop}

/-! ### Hosts -/

namespace Host

/-- A text is a host, and behind a `:` its port if it has one. The port of a name follows the
    last `:`. -/
inductive Spells : List Char → Host → Option (List Char) → Prop
  | name {s : List Char} : IsName s → Spells s (.name (String.ofList s)) none
  | nameWithPort {s port : List Char} : IsName s → ':' ∉ port →
      Spells (s ++ ':' :: port) (.name (String.ofList s)) (some port)
  | address {s : List Char} : IsAddress s →
      Spells ('[' :: s ++ [']']) (.address (String.ofList s)) none
  | addressWithPort {s port : List Char} : IsAddress s →
      Spells ('[' :: s ++ ']' :: ':' :: port) (.address (String.ofList s)) (some port)

variable {t : List Char} {host : Host} {port : Option (List Char)}

/-- A text is split as the host and the port that it spells. -/
theorem spells_iff : Spells t host port ↔ split? t = some (host, port) := by
  rw [split?_eq_some_iff]
  constructor
  · intro h
    cases h with
    | name h =>
      rw [WellFormed, String.toList_ofList, isName_iff]
      exact ⟨h, fun p hp => absurd hp (Option.not_mem_none p), by simp [toText, portChars]⟩
    | nameWithPort h hp =>
      rw [WellFormed, String.toList_ofList, isName_iff]
      refine ⟨h, ?_, by simp [toText, portChars]⟩
      rintro _ ⟨⟩ -
      exact hp
    | address h =>
      rw [WellFormed, String.toList_ofList, isAddress_iff]
      exact ⟨h, fun p hp => absurd hp (Option.not_mem_none p), by simp [toText, portChars]⟩
    | addressWithPort h =>
      rw [WellFormed, String.toList_ofList, isAddress_iff]
      refine ⟨h, ?_, by simp [toText, portChars]⟩
      rintro _ - ⟨_, ⟨⟩⟩
  · rintro ⟨hw, hp, rfl⟩
    cases host with
    | name s =>
      have hs := isName_iff.1 hw
      cases port with
      | none => simpa [toText, portChars] using Spells.name hs
      | some p => simpa [toText, portChars] using Spells.nameWithPort hs (hp p rfl ⟨s, rfl⟩)
    | address s =>
      have hs := isAddress_iff.1 hw
      cases port with
      | none => simpa [toText, portChars] using Spells.address hs
      | some p => simpa [toText, portChars] using (Spells.addressWithPort hs : Spells _ _ (some p))

end Host

/-! ### Authorities -/

namespace Authority

/-- A text is a host with a port that `P` holds of, behind user information if there is an `@`.
    The user information goes up to the last `@`. -/
inductive Spells (P : List Char → Prop) : List Char → Authority → Prop
  | host {t : List Char} {host : Host} {port : Option (List Char)} : '@' ∉ t →
      Host.Spells t host port → (∀ p ∈ port, P p) →
      Spells P t ⟨none, host, port.map String.ofList⟩
  | userinfo {u t : List Char} {host : Host} {port : Option (List Char)} : '@' ∉ t →
      Host.Spells t host port → (∀ p ∈ port, P p) →
      Spells P (u ++ '@' :: t) ⟨some (String.ofList u), host, port.map String.ofList⟩

variable {t rest : List Char} {userinfo : Option (List Char)} {a : Authority} {hostNeeded : Bool}

/-- An authority is spelled by the host behind the last `@`, and by what stands before it. -/
theorem spells_iff (hc : Text.cutLast '@' t = (userinfo, rest)) :
    Spells P t a ↔ ∃ host port, Host.split? rest = some (host, port) ∧ (∀ p ∈ port, P p) ∧
      a = ⟨userinfo.map String.ofList, host, port.map String.ofList⟩ := by
  constructor
  · intro h
    cases h with
    | host hat hh hp =>
      rw [Text.cutLast_of_not_mem hat] at hc
      cases hc
      exact ⟨_, _, Host.spells_iff.1 hh, hp, rfl⟩
    | userinfo hat hh hp =>
      rw [Text.cutLast_append hat] at hc
      cases hc
      exact ⟨_, _, Host.spells_iff.1 hh, hp, rfl⟩
  · rintro ⟨host, port, hh, hp, rfl⟩
    rw [← Host.spells_iff] at hh
    cases userinfo with
    | none =>
      obtain ⟨rfl, hat⟩ := Text.cutLast_eq_none_iff.1 hc
      exact .host hat hh hp
    | some u =>
      obtain ⟨rfl, hat⟩ := Text.cutLast_eq_some_iff.1 hc
      exact .userinfo hat hh hp

/-- An authority is read from the text that spells it, unless it misses a host that is needed. -/
theorem parse_eq_ok_iff : parse hostNeeded t = .ok a ↔
    Spells IsPort t a ∧ (hostNeeded = true → a.host ≠ .name "") := by
  rcases hc : Text.cutLast '@' t with ⟨userinfo, rest⟩
  rw [spells_iff hc]
  cases hh : Host.split? rest with
  | none => simp [parse_of_split?_none hc hh]
  | some x =>
    obtain ⟨host, port⟩ := x
    rw [parse_of_split?_some hc hh]
    constructor
    · intro h
      split_ifs at h with hneed hp
      cases h
      exact ⟨⟨host, port, rfl, all_isPort_iff.1 hp, rfl⟩, hneed⟩
    · rintro ⟨⟨_, _, ⟨⟩, hp, rfl⟩, hneed⟩
      rw [if_pos hneed, if_pos (all_isPort_iff.2 hp)]

/-- A text is refused for its host if it spells no authority with any text for a port, or one
    that misses a host that is needed. -/
theorem parse_eq_invalidHost_iff : parse hostNeeded t = .error .invalidHost ↔
    ¬∃ a, Spells (fun _ => True) t a ∧ (hostNeeded = true → a.host ≠ .name "") := by
  rcases hc : Text.cutLast '@' t with ⟨userinfo, rest⟩
  simp only [spells_iff hc]
  cases hh : Host.split? rest with
  | none => simp [parse_of_split?_none hc hh]
  | some x =>
    obtain ⟨host, port⟩ := x
    rw [parse_of_split?_some hc hh]
    by_cases hneed : hostNeeded = true → host ≠ .name ""
    · rw [if_pos hneed]
      refine iff_of_false (by split_ifs <;> rintro ⟨⟩) (not_not_intro ?_)
      exact ⟨_, ⟨host, port, rfl, fun _ _ => trivial, rfl⟩, hneed⟩
    · rw [if_neg hneed, eq_self, true_iff]
      rintro ⟨_, ⟨_, _, ⟨⟩, -, rfl⟩, h⟩
      exact hneed h

/-- No authority is refused for a scheme. -/
theorem parse_ne_invalidScheme : parse hostNeeded t ≠ .error .invalidScheme := by
  rcases hc : Text.cutLast '@' t with ⟨userinfo, rest⟩
  cases hh : Host.split? rest with
  | none =>
    rw [parse_of_split?_none hc hh]
    rintro ⟨⟩
  | some x =>
    rw [parse_of_split?_some hc hh]
    split_ifs <;> rintro ⟨⟩

end Authority

/-! ### Locations -/

namespace Location

/-- What stands before the first `:` of a text, if no `/` comes before it. -/
def HasScheme (s scheme : List Char) : Prop :=
  ∃ rest, s = scheme ++ ':' :: rest ∧ ':' ∉ scheme ∧ '/' ∉ scheme

/-- The text behind the scheme is a path, or it begins with `//` and an authority, which goes up
    to the next `/`. -/
inductive SpellsTail (P : List Char → Prop) : List Char → Option Authority → List Char → Prop
  | path {s : List Char} : (∀ r, s ≠ '/' :: '/' :: r) → SpellsTail P s none s
  | authority {t path : List Char} {a : Authority} : '/' ∉ t → (∀ c ∈ path.head?, c = '/') →
      Authority.Spells P t a → SpellsTail P ('/' :: '/' :: (t ++ path)) (some a) path

/-- A text is a location, with a port that `P` holds of if it has one. -/
inductive Spells (P : List Char → Prop) : List Char → Location → Prop
  | relative {s path : List Char} {authority : Option Authority} : (∀ x, ¬HasScheme s x) →
      SpellsTail P s authority path → Spells P s ⟨none, authority, String.ofList path⟩
  | absolute {scheme s path : List Char} {authority : Option Authority} : IsScheme scheme →
      SpellsTail P s authority path →
      (NeedsHost scheme → ∃ a ∈ authority, a.host ≠ .name "") →
      Spells P (scheme ++ ':' :: s) ⟨some (String.ofList scheme), authority, String.ofList path⟩

variable {s rest x : List Char} {scheme : Option (List Char)} {l : Location}

/-- The scheme that a text has is the one that is cut off. -/
theorem hasScheme_iff (hc : cutScheme s = (scheme, rest)) : HasScheme s x ↔ scheme = some x := by
  constructor
  · rintro ⟨r, h⟩
    rw [cutScheme_eq_some_iff.2 h] at hc
    cases hc
    rfl
  · rintro rfl
    exact ⟨rest, cutScheme_eq_some_iff.1 hc⟩

/-- A location is spelled by what follows its scheme, and by the scheme. -/
theorem spells_iff (hc : cutScheme s = (scheme, rest)) :
    Spells P s l ↔ scheme.all isScheme = true ∧ ∃ authority path, SpellsTail P rest authority path ∧
      (scheme.any needsHost = true → ∃ a ∈ authority, a.host ≠ .name "") ∧
      l = ⟨scheme.map String.ofList, authority, String.ofList path⟩ := by
  constructor
  · intro h
    cases h with
    | relative hno ht =>
      cases scheme with
      | none =>
        obtain ⟨rfl, -⟩ := cutScheme_eq_none_iff.1 hc
        exact ⟨rfl, _, _, ht, fun h => absurd h Bool.false_ne_true, rfl⟩
      | some x => exact absurd ((hasScheme_iff hc).2 rfl) (hno x)
    | absolute hx ht hn =>
      have hx' := isScheme_iff.2 hx
      rw [cutScheme_eq_some_iff.2 ⟨rfl, not_mem_of_isScheme hx' (by decide) (by decide),
        not_mem_of_isScheme hx' (by decide) (by decide)⟩] at hc
      cases hc
      exact ⟨hx', _, _, ht, fun h => hn (needsHost_iff.1 h), rfl⟩
  · rintro ⟨hs, authority, path, ht, hn, rfl⟩
    cases scheme with
    | none =>
      obtain ⟨rfl, -⟩ := cutScheme_eq_none_iff.1 hc
      refine .relative (fun x hx => ?_) ht
      cases (hasScheme_iff hc).1 hx
    | some x =>
      obtain ⟨rfl, -, -⟩ := cutScheme_eq_some_iff.1 hc
      exact .absolute (isScheme_iff.1 hs) ht fun h => hn (needsHost_iff.2 h)

section Tail

variable {r path : List Char} {authority : Option Authority}

/-- Behind `//` stands an authority, and the path begins with the next `/`. -/
theorem spellsTail_authority_iff : SpellsTail P ('/' :: '/' :: r) authority path ↔
    ∃ a, authority = some a ∧ Authority.Spells P (r.takeWhile (· != '/')) a ∧
      path = r.dropWhile (· != '/') := by
  constructor
  · intro h
    cases h with
    | path h => exact absurd rfl (h r)
    | @authority t path a ht hp ha =>
      have hin : ∀ c ∈ t, (c != '/') = true := fun c hc => bne_iff_ne.2 fun e => ht (e ▸ hc)
      have hhead : ∀ c ∈ path.head?, (c != '/') = false := fun c hc => by
        rw [hp c hc, bne_self_eq_false]
      rw [Text.takeWhile_append_of_head? hin hhead, Text.dropWhile_append_of_head? hin hhead]
      exact ⟨a, rfl, ha, rfl⟩
  · rintro ⟨a, rfl, ha, rfl⟩
    have h : SpellsTail P ('/' :: '/' :: (r.takeWhile (· != '/') ++ r.dropWhile (· != '/')))
        (some a) (r.dropWhile (· != '/')) :=
      .authority (Text.not_mem_takeWhile '/' r) Text.eq_of_mem_head?_dropWhile ha
    rwa [List.takeWhile_append_dropWhile] at h

/-- Without `//` in front, all that follows the scheme is the path. -/
theorem spellsTail_path_iff (hr : ∀ r, rest ≠ '/' :: '/' :: r) :
    SpellsTail P rest authority path ↔ authority = none ∧ path = rest := by
  constructor
  · intro h
    cases h with
    | path => exact ⟨rfl, rfl⟩
    | authority => exact absurd rfl (hr _)
  · rintro ⟨rfl, rfl⟩
    exact .path hr

/-- A text with `//` behind its scheme spells a location with the authority that stands there. -/
theorem spells_authority_iff (hc : cutScheme s = (scheme, '/' :: '/' :: r))
    (hs : scheme.all isScheme = true) : Spells P s l ↔
      ∃ a, (Authority.Spells P (r.takeWhile (· != '/')) a ∧
        (scheme.any needsHost = true → a.host ≠ .name "")) ∧
        ⟨scheme.map String.ofList, some a, String.ofList (r.dropWhile (· != '/'))⟩ = l := by
  rw [spells_iff hc]
  simp only [spellsTail_authority_iff]
  constructor
  · rintro ⟨-, _, _, ⟨a, rfl, ha, rfl⟩, hn, rfl⟩
    refine ⟨a, ⟨ha, fun h => ?_⟩, rfl⟩
    obtain ⟨_, ⟨⟩, hne⟩ := hn h
    exact hne
  · rintro ⟨a, ⟨ha, hn⟩, rfl⟩
    exact ⟨hs, _, _, ⟨a, rfl, ha, rfl⟩, fun h => ⟨a, rfl, hn h⟩, rfl⟩

/-- A text without `//` spells a location with no authority, if no host is needed. -/
theorem spells_path_iff (hc : cutScheme s = (scheme, rest)) (hs : scheme.all isScheme = true)
    (hr : ∀ r, rest ≠ '/' :: '/' :: r) : Spells P s l ↔
      ¬scheme.any needsHost = true ∧
        ⟨scheme.map String.ofList, none, String.ofList rest⟩ = l := by
  rw [spells_iff hc]
  simp only [spellsTail_path_iff hr]
  constructor
  · rintro ⟨-, _, _, ⟨rfl, rfl⟩, hn, rfl⟩
    refine ⟨fun h => ?_, rfl⟩
    obtain ⟨_, ⟨⟩, -⟩ := hn h
  · rintro ⟨hn, rfl⟩
    exact ⟨hs, _, _, ⟨rfl, rfl⟩, fun h => absurd h hn, rfl⟩

end Tail

/-- A location is read from the text that spells it. -/
theorem parse_eq_ok_iff_spells : parse s = .ok l ↔ Spells IsPort s l := by
  rcases hc : cutScheme s with ⟨scheme, rest⟩
  cases hs : scheme.all isScheme with
  | false =>
    rw [parse_of_not_isScheme hc hs, spells_iff hc, hs]
    exact iff_of_false (by rintro ⟨⟩) fun h => Bool.false_ne_true h.1
  | true =>
    by_cases hr : ∃ r, rest = '/' :: '/' :: r
    · obtain ⟨r, rfl⟩ := hr
      rw [parse_of_authority hc hs, spells_authority_iff hc hs]
      simp only [← Authority.parse_eq_ok_iff]
      cases Authority.parse (scheme.any needsHost) (r.takeWhile (· != '/')) <;> simp [Except.map]
    · push Not at hr
      rw [parse_of_path hc hs hr, spells_path_iff hc hs hr]
      split_ifs with hn <;> simp [hn]

/-- What stands for a scheme in a text is one exactly if the part that is cut off is. -/
theorem forall_hasScheme_iff (hc : cutScheme s = (scheme, rest)) :
    (∀ x, HasScheme s x → IsScheme x) ↔ scheme.all isScheme = true := by
  simp only [hasScheme_iff hc, Option.all_eq_true, isScheme_iff]

/-- What stands for a scheme is one in every text that spells a location. -/
theorem Spells.isScheme (h : Spells P s l) : ∀ x, HasScheme s x → IsScheme x := by
  rcases hc : cutScheme s with ⟨scheme, rest⟩
  exact (forall_hasScheme_iff hc).2 ((spells_iff hc).1 h).1

/-- A text is refused for its scheme if what stands there is none. -/
theorem parse_eq_invalidScheme_iff :
    parse s = .error .invalidScheme ↔ ¬∀ x, HasScheme s x → IsScheme x := by
  rcases hc : cutScheme s with ⟨scheme, rest⟩
  rw [forall_hasScheme_iff hc]
  cases hs : scheme.all isScheme with
  | false =>
    rw [parse_of_not_isScheme hc hs]
    exact iff_of_true rfl Bool.false_ne_true
  | true =>
    refine iff_of_false ?_ (not_not_intro rfl)
    by_cases hr : ∃ r, rest = '/' :: '/' :: r
    · obtain ⟨r, rfl⟩ := hr
      rw [parse_of_authority hc hs]
      have hne := @Authority.parse_ne_invalidScheme (r.takeWhile (· != '/')) (scheme.any needsHost)
      cases ha : Authority.parse (scheme.any needsHost) (r.takeWhile (· != '/')) with
      | ok a => rintro ⟨⟩
      | error e => exact fun h => hne (ha.trans (by rw [Except.error.inj h]))
    · push Not at hr
      rw [parse_of_path hc hs hr]
      split_ifs <;> rintro ⟨⟩

/-- A text with a scheme or none is refused for its host if it spells no location with any text
    for a port. -/
theorem parse_eq_invalidHost_iff : parse s = .error .invalidHost ↔
    (∀ x, HasScheme s x → IsScheme x) ∧ ¬∃ l, Spells (fun _ => True) s l := by
  rcases hc : cutScheme s with ⟨scheme, rest⟩
  rw [forall_hasScheme_iff hc]
  cases hs : scheme.all isScheme with
  | false =>
    rw [parse_of_not_isScheme hc hs]
    exact iff_of_false (by rintro ⟨⟩) fun h => Bool.false_ne_true h.1
  | true =>
    rw [eq_self, true_and]
    by_cases hr : ∃ r, rest = '/' :: '/' :: r
    · obtain ⟨r, rfl⟩ := hr
      have herr : parse s = .error .invalidHost ↔
          Authority.parse (scheme.any needsHost) (r.takeWhile (· != '/')) =
            .error .invalidHost := by
        rw [parse_of_authority hc hs]
        cases Authority.parse (scheme.any needsHost) (r.takeWhile (· != '/')) <;> simp [Except.map]
      rw [herr, Authority.parse_eq_invalidHost_iff, not_iff_not]
      simp only [spells_authority_iff hc hs]
      exact ⟨fun ⟨a, ha⟩ => ⟨_, a, ha, rfl⟩, fun ⟨_, a, ha, _⟩ => ⟨a, ha⟩⟩
    · push Not at hr
      rw [parse_of_path hc hs hr]
      simp only [spells_path_iff hc hs hr]
      split_ifs with hn <;> simp [hn]

/-- A text that spells a location but for its port is refused for the port. -/
theorem parse_eq_invalidPort_iff : parse s = .error .invalidPort ↔
    (∃ l, Spells (fun _ => True) s l) ∧ ¬∃ l, Spells IsPort s l := by
  constructor
  · intro h
    refine ⟨by_contra fun hno => ?_, fun ⟨l, hl⟩ => ?_⟩
    · have hs : ∀ x, HasScheme s x → IsScheme x := by
        by_contra hs
        rw [parse_eq_invalidScheme_iff.2 hs] at h
        cases h
      rw [parse_eq_invalidHost_iff.2 ⟨hs, hno⟩] at h
      cases h
    · rw [parse_eq_ok_iff_spells.2 hl] at h
      cases h
  · rintro ⟨⟨l, hl⟩, hno⟩
    cases h : parse s with
    | ok l => exact absurd ⟨l, parse_eq_ok_iff_spells.1 h⟩ hno
    | error e =>
      cases e with
      | invalidScheme => exact absurd hl.isScheme (parse_eq_invalidScheme_iff.1 h)
      | invalidHost => exact absurd ⟨l, hl⟩ (parse_eq_invalidHost_iff.1 h).2
      | invalidPort => rfl

end Location

/-! ### URLs -/

namespace Url

variable {s : String}

/-- What follows the first `d`, if `d` occurs. -/
def afterFirst (d : Char) (s : List Char) : Option (List Char) :=
  if d ∈ s then some (s.dropWhile (· != d)).tail else none

/-- The clean text before its first `#`. -/
def body (s : String) : List Char := (Text.cleanChars s.toList).takeWhile (· != '#')

/-- The clean text before its first `#` and its first `?`. -/
def front (s : String) : List Char := (body s).takeWhile (· != '?')

/-- What is cut off at a delimiter is what follows it. -/
theorem cutFirst_snd (d : Char) (s : List Char) : (Text.cutFirst d s).2 = afterFirst d s := by
  rw [afterFirst, ← elim_cutFirst]
  split_ifs with hd
  · obtain ⟨a, b, rfl, ha⟩ := List.eq_append_cons_of_mem hd
    rw [Text.cutFirst_append ha]
    rfl
  · rw [Text.cutFirst_of_not_mem hd]

/-- A URL is read part by part: its front, its query and its fragment. -/
theorem parse_eq_map (s : String) : parse s = (Location.parse (front s)).map fun location =>
    ⟨location, .ofForm ((afterFirst '?' (body s)).getD []),
      (afterFirst '#' (Text.cleanChars s.toList)).map String.ofList⟩ := by
  rw [← cutFirst_snd, ← cutFirst_snd]
  exact parse_eq s

/-- A text is refused as a URL exactly if its front is refused as a location. -/
theorem parse_eq_error_iff {e : UrlError} :
    parse s = .error e ↔ Location.parse (front s) = .error e := by
  rw [parse_eq_map]
  cases Location.parse (front s) <;> simp [Except.map]

/-- A text is read as a URL exactly if its front spells a location. The location of the URL is the
    one that is spelled, and the query and the fragment are what stands behind. Any other text is
    refused: for its scheme, if what stands there is none; or else for its host, if it is not the
    port alone that keeps the front from spelling a location; or else for its port. -/
theorem parse_spells (s : String) :
    (∀ u, parse s = .ok u ↔ Location.Spells IsPort (front s) u.location ∧
      u.query = .ofForm ((afterFirst '?' (body s)).getD []) ∧
      u.fragment = (afterFirst '#' (Text.cleanChars s.toList)).map String.ofList) ∧
    ((∃ u, parse s = .ok u) ↔ ∃ l, Location.Spells IsPort (front s) l) ∧
    (parse s = .error .invalidScheme ↔ ∃ x, Location.HasScheme (front s) x ∧ ¬IsScheme x) ∧
    (parse s = .error .invalidHost ↔ (∀ x, Location.HasScheme (front s) x → IsScheme x) ∧
      ¬∃ l, Location.Spells (fun _ => True) (front s) l) ∧
    (parse s = .error .invalidPort ↔ (∃ l, Location.Spells (fun _ => True) (front s) l) ∧
      ¬∃ l, Location.Spells IsPort (front s) l) := by
  refine ⟨?_, ?_, ?_, ?_, ?_⟩
  · rintro ⟨location, query, fragment⟩
    rw [parse_eq_map, ← Location.parse_eq_ok_iff_spells]
    cases Location.parse (front s) <;> simp [Except.map, eq_comm]
  · simp only [← Location.parse_eq_ok_iff_spells, parse_eq_map]
    cases Location.parse (front s) <;> simp [Except.map]
  · rw [parse_eq_error_iff, Location.parse_eq_invalidScheme_iff]
    push Not
    rfl
  · rw [parse_eq_error_iff, Location.parse_eq_invalidHost_iff]
  · rw [parse_eq_error_iff, Location.parse_eq_invalidPort_iff]

end Url

end QueryEdit
