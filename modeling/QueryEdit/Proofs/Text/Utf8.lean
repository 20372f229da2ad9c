import Mathlib.Data.List.Induction
import Mathlib.Data.Nat.Find
import QueryEdit.Text.Utf8.Lemmas

/-!
# Reading any bytes as UTF-8

What the reader of UTF-8 does is said here by the bytes of characters alone, without
the table of leads (`Utf8.Reads`). Bytes are read character by character. Where no
character stands, one U+FFFD takes the place of the longest part that begins a
character, or of a single byte if none does (`Utf8.Broken`).

* `Utf8.exists_utf8EncodeChar_eq_cons_iff`: the table has just the bytes of characters;
* `Utf8.Pending.After`: what the machine knows of the bytes that it has read, and
  which bytes it can go on with;
* `Utf8.reads_iff`: the machine reads bytes as this relation says.
-/

namespace QueryEdit.Utf8

variable {bs t x y : List UInt8} {b : UInt8} {s : List Char}

/-- The bytes of a character without some at the end. -/
def Begins (x : List UInt8) : Prop := ∃ c t, t ≠ [] ∧ String.utf8EncodeChar c = x ++ t

/-- The bytes `x` are replaced where `bs` follow them: no character stands there, and they are
    the longest part that begins one, or a single byte. -/
structure Broken (x bs : List UInt8) : Prop where
  not_char : ∀ c, ¬String.utf8EncodeChar c <+: x ++ bs
  begins : x ≠ [] ∧ Begins x ∨ x.length = 1
  longest : ∀ y, y <+: x ++ bs → Begins y → y.length ≤ x.length

/-- The text that bytes are read as. -/
inductive Reads : List UInt8 → List Char → Prop
  | nil : Reads [] []
  | char {bs : List UInt8} {s : List Char} (c : Char) :
      Reads bs s → Reads (String.utf8EncodeChar c ++ bs) (c :: s)
  | broken {x bs : List UInt8} {s : List Char} :
      Broken x bs → Reads bs s → Reads (x ++ bs) ('\uFFFD' :: s)

/-! ### The bytes of characters -/

/-- The bytes of characters are those of ASCII, and those that the table has. -/
theorem exists_utf8EncodeChar_eq_cons_iff :
    (∃ c, String.utf8EncodeChar c = b :: t) ↔
      b.toNat < 0x80 ∧ t = [] ∨ InTable b.toNat (t.map UInt8.toNat) := by
  constructor
  · rintro ⟨c, h⟩
    have hm := map_toNat_utf8EncodeChar c
    have hv : c.toNat.isValidChar := c.valid
    rw [h] at hm
    rcases Nat.lt_or_ge c.toNat 0x80 with hc | hc
    · rw [codeUnits, if_pos (by omega), List.map_cons, List.cons.injEq, List.map_eq_nil_iff] at hm
      exact .inl ⟨hm.1 ▸ hc, hm.2⟩
    · exact .inr (inTable_of_codeUnits hv hc hm.symm).1
  · -- The code point is put together from the low bits of the bytes.
    have hc : ∀ v, v.isValidChar → codeUnits v = (b :: t).map UInt8.toNat →
        ∃ c, String.utf8EncodeChar c = b :: t := by
      intro v hv hm
      have hn : (Char.ofNat v).toNat = v := by
        rw [Char.ofNat, dif_pos hv]
        rfl
      refine ⟨Char.ofNat v, (List.map_inj_right fun _ _ => UInt8.toNat_inj.1).1 ?_⟩
      rw [map_toNat_utf8EncodeChar, hn, hm]
    rintro (⟨hb, rfl⟩ | h)
    · exact hc b.toNat (.inl (by omega)) (if_pos (by omega))
    · exact hc _ h.codeUnits_codePoint.1 h.codeUnits_codePoint.2

/-- Bytes can be found that complete a character. -/
theorem exists_completes {n low high : Nat} (h : low ≤ high) (hb : high < 256) :
    ∃ t : List UInt8, Completes n low high (t.map UInt8.toNat) := by
  induction n generalizing low high with
  | zero => exact ⟨[], trivial⟩
  | succ n ih =>
    obtain ⟨t, ht⟩ := @ih 0x80 0xBF (by decide) (by decide)
    refine ⟨UInt8.ofNat low :: t, ?_, ht⟩
    rw [UInt8.toNat_ofNat', Nat.mod_eq_of_lt (by omega)]
    exact ⟨Nat.le_refl low, h⟩

/-! ### The machine -/

/-- The machine has read the bytes `x` of a character, of which at least one is still to come. -/
structure Pending.After (x : List UInt8) (p : Pending) : Prop where
  decodeFrom_eq : ∀ bs, decodeFrom none (x ++ bs) = decodeFrom (some p) bs
  follow_pos : 0 < p.follow
  low_le : p.low ≤ p.high
  high_lt : p.high < 256
  /-- What is still to come. -/
  completes : ∀ t, (∃ c, String.utf8EncodeChar c = x ++ t) ↔
    Completes p.follow p.low p.high (t.map UInt8.toNat)

theorem after_lead {l : Lead} (hl : l ∈ leads) (h₁ : l.first ≤ b.toNat) (h₂ : b.toNat ≤ l.last) :
    Pending.After [b] ⟨b.toNat % (64 >>> l.follow), l.follow, l.low, l.high⟩ := by
  have hb : ∀ l ∈ leads, 0x80 ≤ l.first ∧ 0 < l.follow ∧ l.low ≤ l.high ∧ l.high < 256 := by decide
  obtain ⟨hf, hp, hlow, hhigh⟩ := hb l hl
  refine ⟨fun bs => decodeFrom_lead hl h₁ h₂, hp, hlow, hhigh, fun t => ?_⟩
  rw [List.singleton_append, exists_utf8EncodeChar_eq_cons_iff]
  constructor
  · rintro (h | ⟨m, hm, ⟨h₁', h₂'⟩, ht⟩)
    · omega
    · -- The rows of the table do not overlap.
      have := find?_leads hm h₁' h₂'
      rw [find?_leads hl h₁ h₂, Option.some.injEq] at this
      rwa [this]
  · exact fun ht => .inr ⟨l, hl, ⟨h₁, h₂⟩, ht⟩

/-- A byte with which a character goes on, when more bytes are still to come. -/
theorem Pending.After.snoc {p : Pending} (h : p.After x) (hb : p.low ≤ b.toNat ∧ b.toNat ≤ p.high)
    (hf : 2 ≤ p.follow) :
    Pending.After (x ++ [b]) ⟨p.bits * 64 + b.toNat % 64, p.follow - 1, 0x80, 0xBF⟩ := by
  obtain ⟨bits, follow, low, high⟩ := p
  obtain ⟨n, rfl⟩ := Nat.exists_eq_add_of_le' hf
  refine ⟨fun bs => ?_, Nat.succ_pos n, (by decide : 0x80 ≤ 0xBF), (by decide : 0xBF < 256),
    fun t => ?_⟩
  · rw [List.append_assoc, h.decodeFrom_eq]
    exact decodeFrom_more hb.1 hb.2
  · rw [List.append_assoc, h.completes]
    exact and_iff_right hb

/-- Bytes that the machine has read of a character begin it. -/
theorem Pending.After.begins {p : Pending} (h : p.After x) : Begins x := by
  obtain ⟨bits, follow, low, high⟩ := p
  obtain ⟨t, ht⟩ := exists_completes (n := follow) h.low_le h.high_lt
  obtain ⟨c, hc⟩ := (h.completes t).2 ht
  refine ⟨c, t, ?_, hc⟩
  rintro rfl
  cases follow with
  | zero => exact absurd h.follow_pos (Nat.lt_irrefl 0)
  | succ n => exact ht

/-- After bytes that begin a character, the machine has read a character in part. -/
theorem exists_after (h : Begins x) (hx : x ≠ []) : ∃ p, Pending.After x p := by
  induction x using List.reverseRecOn with
  | nil => exact absurd rfl hx
  | append_singleton y b ih =>
    obtain ⟨c, t, ht, hc⟩ := h
    rw [List.append_assoc, List.singleton_append] at hc
    cases y with
    | nil =>
      obtain ⟨-, rfl⟩ | ⟨l, hl, ⟨h₁, h₂⟩, -⟩ := exists_utf8EncodeChar_eq_cons_iff.1 ⟨c, hc⟩
      · exact absurd rfl ht
      · exact ⟨_, after_lead hl h₁ h₂⟩
    | cons a y =>
      obtain ⟨p, hp⟩ := ih ⟨c, b :: t, List.cons_ne_nil b t, hc⟩ (List.cons_ne_nil a y)
      -- The machine can go on with `b`, and then with `t`, which is not empty.
      obtain ⟨bits, follow, low, high⟩ := p
      obtain _ | _ | n := follow
      · exact absurd hp.follow_pos (Nat.lt_irrefl 0)
      · obtain ⟨-, hb⟩ := (hp.completes (b :: t)).1 ⟨c, hc⟩
        cases t with
        | nil => exact absurd rfl ht
        | cons b' t => exact hb.elim
      · obtain ⟨hb, -⟩ := (hp.completes (b :: t)).1 ⟨c, hc⟩
        exact ⟨_, hp.snoc hb (Nat.le_add_left 2 n)⟩

/-- Where the bytes after a part of a character do not go on with it, the part is replaced. -/
theorem Pending.After.decode_eq {p : Pending} (h : p.After x)
    (hb : ∀ b ∈ bs.head?, ¬(p.low ≤ b.toNat ∧ b.toNat ≤ p.high)) :
    decode (x ++ bs) = replacement :: decode bs := by
  rw [decode, h.decodeFrom_eq]
  cases bs with
  | nil => rfl
  | cons b bs => simp [decodeFrom, step, hb b rfl, decode]

/-- A byte that begins no character is replaced. -/
theorem decode_cons_of_not_lead (hb : 0x80 ≤ b.toNat)
    (h : ∀ l ∈ leads, ¬(l.first ≤ b.toNat ∧ b.toNat ≤ l.last)) :
    decode (b :: bs) = replacement :: decode bs := by
  have hn : (leads.find? fun l => l.first ≤ b.toNat && b.toNat ≤ l.last) = none := by
    refine List.find?_eq_none.2 fun l hl => ?_
    rw [Bool.and_eq_true, decide_eq_true_iff, decide_eq_true_iff]
    exact h l hl
  simp [decode, decodeFrom, step, start, Nat.not_lt.2 hb, hn]

/-! ### Broken bytes -/

/-- A part of a character that is broken cannot go on with the byte after it. -/
theorem Broken.not_mem {p : Pending} (h : Broken x bs) (hp : p.After x) :
    ∀ b ∈ bs.head?, ¬(p.low ≤ b.toNat ∧ b.toNat ≤ p.high) := by
  obtain ⟨bits, follow, low, high⟩ := p
  cases bs with
  | nil => exact fun b hb => absurd hb (Option.not_mem_none b)
  | cons b bs =>
    rintro _ ⟨⟩ hb
    -- The byte and some others would complete the character.
    cases follow with
    | zero => exact absurd hp.follow_pos (Nat.lt_irrefl 0)
    | succ n =>
      obtain ⟨t, ht⟩ := @exists_completes n 0x80 0xBF (by decide) (by decide)
      obtain ⟨c, hc⟩ := (hp.completes (b :: t)).2 ⟨hb, ht⟩
      by_cases hn : t = []
      · refine h.not_char c ⟨bs, ?_⟩
        rw [hc, hn, List.append_assoc]
        rfl
      · have hl := h.longest (x ++ [b]) ⟨bs, List.append_assoc x [b] bs⟩
          ⟨c, t, hn, by rw [hc, List.append_assoc]; rfl⟩
        rw [List.length_append, List.length_singleton] at hl
        omega

/-- Broken bytes are replaced together. -/
theorem Broken.decode_eq (h : Broken x bs) : decode (x ++ bs) = replacement :: decode bs := by
  by_cases hx : x ≠ [] ∧ Begins x
  · obtain ⟨p, hp⟩ := exists_after hx.2 hx.1
    exact hp.decode_eq (h.not_mem hp)
  · -- It is a single byte, which is no character and begins none.
    obtain ⟨b, rfl⟩ := List.length_eq_one_iff.1 (h.begins.resolve_left hx)
    refine decode_cons_of_not_lead (Nat.not_lt.1 fun hb => ?_) fun l hl hb => ?_
    · obtain ⟨c, hc⟩ := exists_utf8EncodeChar_eq_cons_iff.2 (.inl ⟨hb, rfl⟩)
      exact h.not_char c ⟨bs, by rw [hc]⟩
    · exact hx ⟨List.cons_ne_nil b [], (after_lead hl hb.1 hb.2).begins⟩

/-- Where no character stands, some bytes are broken. -/
theorem exists_broken (hne : bs ≠ []) (h : ∀ c, ¬String.utf8EncodeChar c <+: bs) :
    ∃ x r, bs = x ++ r ∧ Broken x r := by
  classical
  -- The length of the longest part that begins a character.
  let n := Nat.findGreatest (fun n => Begins (bs.take n)) bs.length
  have hle : n ≤ bs.length := Nat.findGreatest_le _
  have hpos : 0 < bs.length := List.length_pos_iff.2 hne
  have hlongest : ∀ y, y <+: bs → Begins y → y.length ≤ n := fun y hy hb =>
    Nat.le_findGreatest hy.length_le (by rwa [← List.prefix_iff_eq_take.1 hy])
  refine ⟨bs.take (max n 1), bs.drop (max n 1), (List.take_append_drop _ bs).symm, ?_, ?_, ?_⟩
  · rwa [List.take_append_drop]
  · by_cases hn : n = 0
    · right
      rw [hn, List.length_take]
      omega
    · left
      have hb : Begins (bs.take n) := Nat.findGreatest_of_ne_zero rfl hn
      rw [max_eq_left (by omega)]
      exact ⟨List.ne_nil_of_length_pos (by rw [List.length_take]; omega), hb⟩
  · rw [List.take_append_drop, List.length_take]
    intro y hy hb
    have := hlongest y hy hb
    omega

/-! ### Reading -/

/-- Bytes are decoded as the text that is read from them. -/
theorem Reads.decode_eq (h : Reads bs s) : decode bs = s := by
  induction h with
  | nil => rfl
  | char c _ ih => rw [decode, decodeFrom_encodeChar, ← decode, ih]
  | broken hx _ ih => rw [hx.decode_eq, ih, replacement]

/-- All bytes can be read. -/
theorem reads_decode (bs : List UInt8) : Reads bs (decode bs) := by
  induction hn : bs.length using Nat.strong_induction_on generalizing bs with
  | _ n ih =>
    by_cases hbs : bs = []
    · rw [hbs]
      exact .nil
    by_cases hc : ∃ c, String.utf8EncodeChar c <+: bs
    · obtain ⟨c, r, rfl⟩ := hc
      have hpos := List.length_pos_iff.2 (String.utf8EncodeChar_ne_nil (c := c))
      rw [List.length_append] at hn
      rw [decode, decodeFrom_encodeChar]
      exact .char c (ih r.length (by omega) r rfl)
    · push Not at hc
      obtain ⟨x, r, rfl, hx⟩ := exists_broken hbs hc
      have hpos : 0 < x.length := hx.begins.elim (fun h => List.length_pos_iff.2 h.1) (by omega)
      rw [List.length_append] at hn
      rw [hx.decode_eq]
      exact .broken hx (ih r.length (by omega) r rfl)

/-- Bytes are read as one text, and this is what the machine gives. -/
theorem reads_iff : Reads bs s ↔ decode bs = s :=
  ⟨Reads.decode_eq, fun h => h ▸ reads_decode bs⟩

end QueryEdit.Utf8
