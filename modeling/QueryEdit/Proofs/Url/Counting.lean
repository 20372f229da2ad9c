import Mathlib.Data.List.Induction
import QueryEdit.Proofs.Text.Decimal
import QueryEdit.Proofs.Url.Keys

/-!
# Counting in the text of a query

Counting a key up or down leaves one pair of the key, with the decimal text of a sum
(`Pairs.edit_of_isCount`). This text is read back when the key is counted again, so
a run of mutations that only count the key does a sum of integers, whatever it does to
other keys (`Pairs.number_editAll`): it begins with the number in the last value
(`CountsFrom`), and stops at the bounds of 64 bits after each step
(`Mutation.countAll`). `Url.Reachable.countsFrom_editAll` says so of URLs.

The number in the last value counts if it has 64 bits. Else the key counts as 0, as if
there were no number (`Url.Reachable.countsAs_iff_isWord`).
-/

namespace QueryEdit

open Decimal

variable {key : String} {m : Mutation} {ms : List Mutation} {n k : Int}

/-! ### Sums -/

namespace Mutation

/-- The mutation counts up or down. -/
def IsCount : Mutation → Prop
  | inc _ _ | dec _ _ => True
  | _ => False

instance : DecidablePred IsCount
  | inc _ _ | dec _ _ => .isTrue trivial
  | set _ _ | add _ _ | remove _ _ | replace _ _ => .isFalse id

/-- The number after a mutation that counts. -/
def count (n : Int) : Mutation → Int
  | inc _ amount => clamp (n + amount.toInt)
  | dec _ amount => clamp (n - amount.toInt)
  | _ => n

/-- The number after the mutations of a key in turn. -/
def countAll (key : String) (n : Int) (ms : List Mutation) : Int :=
  (ms.filter fun m => m.key = key).foldl count n

theorem isWord_count (h : m.IsCount) (n : Int) : IsWord (m.count n) := by
  cases m with
  | inc key amount | dec key amount => exact isWord_clamp _
  | _ => exact h.elim

theorem countAll_append_of_eq (h : m.key = key) (n : Int) (ms : List Mutation) :
    countAll key n (ms ++ [m]) = m.count (countAll key n ms) := by
  rw [countAll, List.filter_append, List.filter_singleton, decide_eq_true h, List.foldl_append]
  rfl

theorem countAll_append_of_ne (h : m.key ≠ key) (n : Int) (ms : List Mutation) :
    countAll key n (ms ++ [m]) = countAll key n ms := by
  rw [countAll, List.filter_append, List.filter_singleton, decide_eq_false h, countAll]
  exact congrArg _ (List.append_nil _)

end Mutation

/-- The number from which a key with these values is counted: that of the last value if it has
    64 bits, or else 0. -/
inductive CountsFrom (values : List String) : Int → Prop
  | word {v : String} {n : Int} : v ∈ values.getLast? → Holds v n → IsWord n → CountsFrom values n
  | zero : (∀ v ∈ values.getLast?, ∀ n, Holds v n → ¬IsWord n) → CountsFrom values 0

/-- A key is counted from one number. -/
theorem CountsFrom.unique {values : List String} (h : CountsFrom values n)
    (h' : CountsFrom values k) : n = k := by
  cases h with
  | word hv hn hw =>
    cases h' with
    | word hv' hk => exact hn.unique (Option.mem_unique hv hv' ▸ hk)
    | zero h' => exact absurd hw (h' _ hv n hn)
  | zero h =>
    cases h' with
    | word hv hk hw => exact absurd hw (h _ hv k hk)
    | zero => rfl

/-! ### Counting pairs -/

namespace Pairs

/-- The number of a key is the one from which it is counted. -/
theorem countsFrom_number (key : String) (ps : Pairs) :
    CountsFrom (valuesOf key ps) (number key ps).toInt := by
  rw [number]
  cases hl : (valuesOf key ps).getLast? with
  | none => exact .zero fun v hv => by simp [hl] at hv
  | some v =>
    rw [Option.bind_some]
    cases hw : readInt64? (Text.trim v.toList) with
    | none =>
      refine .zero fun v' hv' => ?_
      rw [hl, Option.mem_some] at hv'
      exact hv' ▸ readInt64?_trim_eq_none_iff.1 hw
    | some w => exact .word hl (readInt64?_trim.1 hw) (isWord_toInt w)

/-- Counting puts a decimal in place of all values of the key. -/
theorem edit_of_isCount (h : m.IsCount) (ps : Pairs) :
    edit ps m = put ⟨m.key, toString (m.count (number m.key ps).toInt)⟩ ps := by
  have hput : ∀ key n, putNumber key n ps = put ⟨key, toString (clamp n)⟩ ps := fun key n => by
    rw [putNumber, Value.toText, toInt_ofIntClamp, ofList_write]
  cases m with
  | inc key amount | dec key amount => exact hput key _
  | _ => exact h.elim

theorem valuesOf_put (key value : String) (ps : Pairs) :
    valuesOf key (put ⟨key, value⟩ ps) = [value] := by
  have hnil : (without key ps).filter (fun p => p.key == key) = [] := by
    refine List.filter_eq_nil_iff.2 fun p hp => ?_
    simpa using (List.mem_filter.1 hp).2
  rw [valuesOf, put, List.filter_append, hnil, List.filter_singleton, beq_self_eq_true]
  rfl

/-- A mutation of another key does not change the values of a key. -/
theorem valuesOf_edit_of_ne (h : m.key ≠ key) (ps : Pairs) :
    valuesOf key (edit ps m) = valuesOf key ps := by
  have hv : ∀ ps, valuesOf key (ofKeys (fun k => k = key) ps) = valuesOf key ps :=
    valuesOf_ofKeys (decide_eq_true rfl)
  rw [← hv (edit ps m), ofKeys_edit_of_false (decide_eq_false h), hv]

/-- The text that counting puts is read as the number that was counted. -/
theorem number_edit_of_isCount (h : m.IsCount) (ps : Pairs) :
    (number m.key (edit ps m)).toInt = m.count (number m.key ps).toInt := by
  have hn := countsFrom_number m.key (edit ps m)
  rw [edit_of_isCount h, valuesOf_put] at hn
  rw [edit_of_isCount h]
  exact hn.unique (.word rfl (holds_toString _) (Mutation.isWord_count h _))

theorem editAll_append (ps : Pairs) (ms : List Mutation) (m : Mutation) :
    editAll ps (ms ++ [m]) = edit (editAll ps ms) m :=
  List.foldl_append

/-- A run counts a key as integers are counted. -/
theorem number_editAll (h : ∀ m ∈ ms, m.key = key → m.IsCount) (ps : Pairs) :
    (number key (editAll ps ms)).toInt = Mutation.countAll key (number key ps).toInt ms := by
  induction ms using List.reverseRecOn with
  | nil => rfl
  | append_singleton ms m ih =>
    specialize ih fun m hm => h m (List.mem_append_left _ hm)
    rw [editAll_append]
    by_cases hm : m.key = key
    · rw [Mutation.countAll_append_of_eq hm, ← ih]
      subst hm
      exact number_edit_of_isCount (h m (by simp) rfl) _
    · rw [Mutation.countAll_append_of_ne hm, ← ih, number, valuesOf_edit_of_ne hm, number]

/-- Each step that counts a key leaves one pair of it, which is the last of all pairs. -/
theorem editAll_append_of_isCount (h : ∀ m ∈ ms, m.key = key → m.IsCount) (hkey : m.key = key)
    (hm : m.IsCount) (ps : Pairs) :
    editAll ps (ms ++ [m]) = put
      ⟨key, toString (Mutation.countAll key (number key ps).toInt (ms ++ [m]))⟩
      (editAll ps ms) := by
  rw [editAll_append, edit_of_isCount hm, Mutation.countAll_append_of_eq hkey,
    ← number_editAll h, hkey]

/-- After a run that counts a key, its only value is the sum. -/
theorem valuesOf_editAll_of_isCount (h : ∀ m ∈ ms, m.key = key → m.IsCount)
    (hex : ∃ m ∈ ms, m.key = key) (ps : Pairs) :
    valuesOf key (editAll ps ms) =
      [toString (Mutation.countAll key (number key ps).toInt ms)] := by
  induction ms using List.reverseRecOn with
  | nil => simp at hex
  | append_singleton ms m ih =>
    have h' : ∀ m ∈ ms, m.key = key → m.IsCount := fun m hm => h m (List.mem_append_left _ hm)
    by_cases hm : m.key = key
    · rw [editAll_append_of_isCount h' hm (h m (by simp) hm)]
      exact valuesOf_put _ _ _
    · -- The last mutation is of another key, so an earlier one is of this key.
      have hex' : ∃ m ∈ ms, m.key = key := by
        obtain ⟨m', hm', hk⟩ := hex
        rcases List.mem_append.1 hm' with hm' | hm'
        · exact ⟨m', hm', hk⟩
        · exact absurd (List.mem_singleton.1 hm' ▸ hk) hm
      rw [editAll_append, valuesOf_edit_of_ne hm, ih h' hex', Mutation.countAll_append_of_ne hm]

end Pairs

/-! ### Counting keys of URLs -/

namespace Url

variable {s : String} {u : Url}

/-- After mutations that only count a key, its value is the sum of the amounts and of the number
    that was there before, and it stands last after each of them. -/
theorem Reachable.countsFrom_editAll (h : Reachable s u) (key : String) :
    (∃ b, CountsFrom (u.getAll key) b) ∧
      ∀ b, CountsFrom (u.getAll key) b → ∀ ms : List Mutation,
        (∀ m ∈ ms, m.key = key → m.IsCount) →
          ((∃ m ∈ ms, m.key = key) →
            (u.editAll ms).getAll key = [toString (Mutation.countAll key b ms)]) ∧
          ∀ m : Mutation, m.key = key → m.IsCount →
            (u.editAll (ms ++ [m])).query.toList =
              ((u.editAll ms).query.toList.filter fun p => p.key != key) ++
                [⟨key, toString (Mutation.countAll key b (ms ++ [m]))⟩] := by
  lift u to WellFormedUrl using h.wellFormed
  rw [u.getAll_eq]
  have hn := Pairs.countsFrom_number key u.query.toList
  refine ⟨⟨_, hn⟩, fun b hb ms hms => ?_⟩
  obtain rfl := hn.unique hb
  refine ⟨fun hex => ?_, fun m hkey hm => ?_⟩
  · refine ((u.editAll ms).getAll_eq key).trans ?_
    rw [u.toList_editAll]
    exact Pairs.valuesOf_editAll_of_isCount hms hex _
  · change (u.editAll (ms ++ [m])).query.toList = Pairs.without key (u.editAll ms).query.toList ++ _
    rw [u.toList_editAll, u.toList_editAll]
    exact Pairs.editAll_append_of_isCount hms hkey hm _

/-- The last of two values is counted from. The sum stops at the upper bound, and goes on from
    there. -/
theorem countsFrom_editAll_dec :
    ∃ u, Reachable "/?n=7&n=+-5%20" u ∧
      (u.editAll [.dec "n" Int64.minValue, .inc "n" 100, .add "x" "1", .dec "n" 7]).getAll "n" =
        ["9223372036854775800"] ∧
      (u.editAll [.add "x" "1", .dec "n" Int64.minValue]).query.toList =
        [⟨"x", "1"⟩, ⟨"n", "9223372036854775803"⟩] := by
  obtain ⟨u, hu, hv, hx⟩ : ∃ u, parse "/?n=7&n=+-5%20" = .ok u ∧ u.getAll "n" = ["7", " -5 "] ∧
      (u.editAll [.add "x" "1"]).query.toList = [⟨"n", "7"⟩, ⟨"n", " -5 "⟩, ⟨"x", "1"⟩] :=
    ⟨_, rfl, by decide, by decide⟩
  have hn : Holds " -5 " (-5) := holds_iff.2 (by decide)
  obtain ⟨-, hrun⟩ := Reachable.countsFrom_editAll (.start hu) "n"
  specialize hrun (-5) (hv ▸ .word rfl hn (by decide))
  have hall := (hrun [.dec "n" Int64.minValue, .inc "n" 100, .add "x" "1", .dec "n" 7]
    (by decide)).1 (by decide)
  have hlast := (hrun [.add "x" "1"] (by decide)).2 (.dec "n" Int64.minValue) rfl trivial
  rw [hx] at hlast
  exact ⟨u, .start hu, hall.trans (by decide +kernel), hlast.trans (by decide +kernel)⟩

/-! ### What a key counts as -/

/-- A key counts as a number if counting it by any amount gives the sum or the difference, or the
    nearest integer of 64 bits. -/
def CountsAs (u : Url) (key : String) (n : Int) : Prop :=
  ∀ amount : Int64,
    (u.edit (.inc key amount)).getAll key = [toString (clamp (n + amount.toInt))] ∧
      (u.edit (.dec key amount)).getAll key = [toString (clamp (n - amount.toInt))]

/-- A key counts as the number from which it is counted. -/
theorem countsAs_of_countsFrom (u : WellFormedUrl) (h : CountsFrom (u.getAll key) n) :
    CountsAs u.toUrl key n := by
  have hv : ∀ m : Mutation, m.key = key → m.IsCount →
      (u.edit m).getAll key = [toString (m.count n)] := by
    intro m hkey hm
    rw [u.getAll_eq] at h
    obtain rfl := (Pairs.countsFrom_number key u.query.toList).unique h
    rw [(u.edit m).getAll_eq, u.toList_edit, Pairs.edit_of_isCount hm, hkey, Pairs.valuesOf_put]
  exact fun amount => ⟨hv (.inc key amount) rfl trivial, hv (.dec key amount) rfl trivial⟩

/-- A key does not count as two numbers of 64 bits. -/
theorem CountsAs.clamp_eq (h : CountsAs u key n) (h' : CountsAs u key k) : clamp n = clamp k := by
  -- Counting by nothing writes the number as it is.
  have htext := (h 0).1.symm.trans (h' 0).1
  rw [Int64.toInt_zero, Int.add_zero, Int.add_zero, List.singleton_inj] at htext
  exact (holds_toString (clamp n)).unique (htext ▸ holds_toString (clamp k))

/-- A key counts as the integer in its last value exactly if this integer has 64 bits. It counts
    as 0 if it has more, or if there is no integer. -/
theorem Reachable.countsAs_iff_isWord (h : Reachable s u) (key : String) :
    (∀ v ∈ (u.getAll key).getLast?, ∀ n, Holds v n →
      (CountsAs u key n ↔ IsWord n) ∧ (¬IsWord n → CountsAs u key 0)) ∧
    ((∀ v ∈ (u.getAll key).getLast?, ∀ n, ¬Holds v n) → CountsAs u key 0) := by
  lift u to WellFormedUrl using h.wellFormed
  refine ⟨fun v hv n hn => ?_, fun hn => ?_⟩
  · have hzero : ¬IsWord n → CountsAs u.toUrl key 0 := by
      intro hw
      refine countsAs_of_countsFrom u (.zero fun v' hv' k hk => ?_)
      obtain rfl := Option.mem_unique hv hv'
      rwa [← hn.unique hk]
    refine ⟨⟨fun hcount => ?_, fun hw => countsAs_of_countsFrom u (.word hv hn hw)⟩, hzero⟩
    -- The bound that is nearest to an integer out of range is not 0.
    by_contra hw
    have hclamp := hcount.clamp_eq (hzero hw)
    rw [IsWord] at hw
    rw [clamp, clamp] at hclamp
    omega
  · exact countsAs_of_countsFrom u (.zero fun v hv k hk => absurd hk (hn v hv k))

/-- A sign and zeros in front do not change the number. -/
theorem countsAs_iff_isWord_plus :
    ∃ u, Reachable "/?n=1&n=%2B0042" u ∧ u.getAll "n" = ["1", "+0042"] ∧ CountsAs u "n" 42 := by
  obtain ⟨u, hu, hv⟩ : ∃ u, parse "/?n=1&n=%2B0042" = .ok u ∧ u.getAll "n" = ["1", "+0042"] :=
    ⟨_, rfl, by decide⟩
  have hn : Holds "+0042" 42 := holds_iff.2 (by decide)
  obtain ⟨hcount, -⟩ := Reachable.countsAs_iff_isWord (.start hu) "n"
  exact ⟨u, .start hu, hv, (hcount "+0042" (hv ▸ rfl) 42 hn).1.2 (by decide)⟩

/-- The first integer out of range counts as 0. -/
theorem not_countsAs :
    ∃ u, Reachable "/?n=9223372036854775808" u ∧ u.getAll "n" = ["9223372036854775808"] ∧
      Holds "9223372036854775808" 9223372036854775808 ∧ (u.edit (.inc "n" 0)).getAll "n" = ["0"] ∧
      ¬CountsAs u "n" 9223372036854775808 := by
  obtain ⟨u, hu, hv, hinc⟩ : ∃ u, parse "/?n=9223372036854775808" = .ok u ∧
      u.getAll "n" = ["9223372036854775808"] ∧ (u.edit (.inc "n" 0)).getAll "n" = ["0"] :=
    ⟨_, rfl, by decide, by decide⟩
  refine ⟨u, .start hu, hv, holds_iff.2 (by decide), hinc, fun h => ?_⟩
  have h₀ := (h 0).1
  rw [hinc] at h₀
  revert h₀
  decide +kernel

end Url

end QueryEdit
