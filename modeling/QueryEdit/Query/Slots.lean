import QueryEdit.Query.Basic

/-!
# Slots

The slots of a query by themselves. They are looked at position by position
(`pairAt?`), from which follow their pairs (`pairsIn_eq`), the positions of a key
(`positionsIn`) and its values (`valuesOf_pairsIn`). An edit is then described by
what it does at each position:

* `pairsIn_clear_positionsIn`: holes at all positions of a key drop its pairs;
* `pairsIn_clear_singleton`: a hole at the first position of a pair drops the first
  such pair;
* `foldl_cutAt`: cutting at positions changes these positions only, and counts the
  values that change.
-/

namespace QueryEdit.Query

variable {slots : Array (Option Pair)} {i : Nat} {key : String} {p : Pair}

/-- The positions of the pairs of a key, ascending. -/
def positionsIn (slots : Array (Option Pair)) (key : String) : List Nat :=
  (List.range slots.size).filter fun i => (pairAt? slots i).any fun p => p.key == key

/-! ### Position by position -/

/-- Pairs are at positions of slots only. -/
theorem lt_size_of_pairAt? (h : pairAt? slots i = some p) : i < slots.size := by
  rw [pairAt?] at h
  rcases Nat.lt_or_ge i slots.size with hi | hi
  · exact hi
  · simp [Array.getElem?_eq_none hi] at h

/-- A slot added at the end comes behind the other ones. -/
@[simp] theorem pairAt?_push (slots : Array (Option Pair)) (o : Option Pair) (i : Nat) :
    pairAt? (slots.push o) i = if i = slots.size then o else pairAt? slots i := by
  rw [pairAt?, Array.getElem?_push]
  split <;> simp [pairAt?]

/-- To write to a slot changes what is at its position, and nothing else. -/
@[simp] theorem pairAt?_setIfInBounds (slots : Array (Option Pair)) (i j : Nat)
    (o : Option Pair) :
    pairAt? (slots.setIfInBounds i o) j =
      if i = j ∧ j < slots.size then o else pairAt? slots j := by
  by_cases hj : i = j <;> by_cases hs : j < slots.size <;> simp [pairAt?, hj, hs]

/-- Holes leave as many slots as there were. -/
@[simp] theorem size_clear (slots : Array (Option Pair)) (is : List Nat) :
    (clear slots is).size = slots.size := by
  induction is generalizing slots with
  | nil => rfl
  | cons i is ih => rw [clear, List.foldl_cons, ← clear, ih, Array.size_setIfInBounds]

/-- Holes are at the positions given for them; the other slots stay. -/
@[simp] theorem pairAt?_clear (slots : Array (Option Pair)) (is : List Nat) (i : Nat) :
    pairAt? (clear slots is) i = if i ∈ is then none else pairAt? slots i := by
  induction is generalizing slots with
  | nil => simp [clear]
  | cons j is ih =>
    rw [clear, List.foldl_cons, ← clear, ih, pairAt?_setIfInBounds]
    by_cases hi : i ∈ is
    · simp [hi]
    · by_cases hj : j = i
      · subst hj
        by_cases hs : j < slots.size
        · simp [hs]
        · simp [hi, hs, pairAt?]
      · simp [hi, hj, Ne.symm hj]

/-! ### The pairs and their positions -/

/-- The pairs in slots are those at the positions in turn. -/
theorem pairsIn_eq (slots : Array (Option Pair)) :
    pairsIn slots = (List.range slots.size).filterMap (pairAt? slots) := by
  have h : ∀ l : List (Option Pair),
      l.filterMap id = (List.range l.length).filterMap fun i => l[i]?.join := by
    intro l
    induction l with
    | nil => rfl
    | cons o l ih =>
      rw [List.length_cons, List.range_succ_eq_map, List.filterMap_cons, List.filterMap_cons,
        List.filterMap_map, ih]
      cases o <;> rfl
  rw [pairsIn, h, Array.length_toList]
  simp only [Array.getElem?_toList]
  rfl

/-- The pairs in slots are those that stand at some position. -/
theorem mem_pairsIn : p ∈ pairsIn slots ↔ ∃ i, pairAt? slots i = some p := by
  rw [pairsIn_eq, List.mem_filterMap]
  exact ⟨fun ⟨i, _, h⟩ => ⟨i, h⟩,
    fun ⟨i, h⟩ => ⟨i, List.mem_range.2 (lt_size_of_pairAt? h), h⟩⟩

/-- The positions of a key are those where a pair of it stands. -/
theorem mem_positionsIn :
    i ∈ positionsIn slots key ↔ ∃ p, pairAt? slots i = some p ∧ p.key = key := by
  rw [positionsIn, List.mem_filter, List.mem_range, Option.any_eq_true]
  simp only [beq_iff_eq]
  exact ⟨fun h => h.2, fun ⟨p, h, hk⟩ => ⟨lt_size_of_pairAt? h, p, h, hk⟩⟩

/-- No position of a key is listed twice. -/
theorem nodup_positionsIn (slots : Array (Option Pair)) (key : String) :
    (positionsIn slots key).Nodup :=
  List.nodup_range.filter _

/-- A key has as many pairs as positions. -/
theorem countP_pairsIn (slots : Array (Option Pair)) (key : String) :
    (pairsIn slots).countP (fun p => p.key == key) = (positionsIn slots key).length := by
  rw [pairsIn_eq, positionsIn, List.countP_filterMap, List.countP_eq_length_filter]
  congr 2
  funext i
  cases pairAt? slots i <;> rfl

/-- The values of a key are those at its positions. -/
theorem valuesOf_pairsIn (slots : Array (Option Pair)) (key : String) :
    Pairs.valuesOf key (pairsIn slots) =
      (positionsIn slots key).filterMap fun i => (pairAt? slots i).map Pair.value := by
  rw [pairsIn_eq, positionsIn, Pairs.valuesOf]
  induction List.range slots.size with
  | nil => rfl
  | cons i is ih =>
    rw [List.filterMap_cons, List.filter_cons]
    cases h : pairAt? slots i with
    | none => simpa using ih
    | some p => by_cases hk : p.key = key <;> simp [h, hk, ih]

/-- A pair added at the end is at one new position of its key. -/
theorem positionsIn_push (slots : Array (Option Pair)) (p : Pair) (key : String) :
    positionsIn (slots.push (some p)) key =
      positionsIn slots key ++ if p.key = key then [slots.size] else [] := by
  rw [positionsIn, Array.size_push, List.range_succ, List.filter_append, positionsIn]
  congr 1
  · refine List.filter_congr fun i hi => ?_
    rw [pairAt?_push, if_neg (by have := List.mem_range.1 hi; omega)]
  · by_cases h : p.key = key <;> simp [h]

/-! ### All pairs of a key -/

/-- Holes at the positions of a key are holes in place of its pairs. -/
theorem pairAt?_clear_positionsIn (slots : Array (Option Pair)) (key : String) (i : Nat) :
    pairAt? (clear slots (positionsIn slots key)) i =
      (pairAt? slots i).filter fun p => p.key != key := by
  rw [pairAt?_clear]
  simp only [mem_positionsIn]
  cases pairAt? slots i with
  | none => simp
  | some p => by_cases hk : p.key = key <;> simp [Option.filter, hk]

/-- Holes at all positions of a key drop its pairs. -/
theorem pairsIn_clear_positionsIn (slots : Array (Option Pair)) (key : String) :
    pairsIn (clear slots (positionsIn slots key)) = Pairs.without key (pairsIn slots) := by
  rw [pairsIn_eq, pairsIn_eq, size_clear, Pairs.without, List.filter_filterMap]
  exact congrArg (List.filterMap · _) (funext (pairAt?_clear_positionsIn slots key))

/-- Holes at all positions of a key leave it without any, and those of other keys as they are. -/
theorem positionsIn_clear_positionsIn (slots : Array (Option Pair)) (key k : String) :
    positionsIn (clear slots (positionsIn slots key)) k =
      if k = key then [] else positionsIn slots k := by
  rw [positionsIn, size_clear]
  simp only [pairAt?_clear_positionsIn]
  split
  · subst k
    refine List.filter_eq_nil_iff.2 fun i _ => ?_
    cases pairAt? slots i with
    | none => simp
    | some p => by_cases hk : p.key = key <;> simp [Option.filter, hk]
  · rename_i hk
    refine List.filter_congr fun i _ => ?_
    cases pairAt? slots i with
    | none => rfl
    | some p => by_cases hp : p.key = key <;> simp [Option.filter, hp, Ne.symm hk]

/-! ### One pair -/

/-- A hole at the first position of a pair drops the first such pair. -/
theorem pairsIn_clear_singleton (h : pairAt? slots i = some p)
    (hlt : ∀ j < i, pairAt? slots j ≠ some p) :
    pairsIn (clear slots [i]) = (pairsIn slots).erase p := by
  have hl : ∀ (l : List (Option Pair)) (i : Nat), l[i]?.join = some p →
      (∀ j < i, l[j]?.join ≠ some p) →
      (l.set i none).filterMap id = (l.filterMap id).erase p := by
    intro l
    induction l with
    | nil => intro i h; simp at h
    | cons o l ih =>
      intro i h hlt
      cases i with
      | zero =>
        simp only [List.getElem?_cons_zero, Option.join_some] at h
        simp [h]
      | succ i =>
        have ho : o ≠ some p := by simpa using hlt 0 (Nat.succ_pos _)
        have hr := ih i (by simpa using h) fun j hj => by simpa using hlt (j + 1) (by omega)
        rw [List.set_cons_succ]
        cases o with
        | none => simpa using hr
        | some p' =>
          have hp : ¬(p' == p) = true := fun hp => ho (congrArg some (eq_of_beq hp))
          change p' :: (l.set i none).filterMap id = (p' :: l.filterMap id).erase p
          rw [List.erase_cons_tail hp, hr]
  rw [pairsIn, clear, List.foldl_cons, List.foldl_nil, Array.toList_setIfInBounds, pairsIn]
  exact hl _ _ (by simpa [pairAt?] using h) fun j hj => by simpa [pairAt?] using hlt j hj

/-- A hole in place of a pair takes one position from its key. -/
theorem positionsIn_clear_singleton (h : pairAt? slots i = some p) (key : String) :
    positionsIn (clear slots [i]) key =
      if key = p.key then (positionsIn slots key).erase i else positionsIn slots key := by
  have hc : positionsIn (clear slots [i]) key = (positionsIn slots key).filter (· != i) := by
    rw [positionsIn, size_clear, positionsIn, List.filter_filter]
    refine List.filter_congr fun j _ => ?_
    by_cases hj : j = i <;> simp [hj]
  rw [hc]
  split
  · rw [(nodup_positionsIn slots key).erase_eq_filter]
  · rename_i hk
    refine List.filter_eq_self.2 fun j hj => ?_
    obtain ⟨p', hp', hk'⟩ := mem_positionsIn.1 hj
    rw [bne_iff_ne]
    rintro rfl
    rw [h] at hp'
    cases hp'
    exact hk hk'.symm

/-- Among the positions of its key, the first one that holds the value of a pair is the
    first position of the pair. -/
theorem find?_positionsIn (slots : Array (Option Pair)) (p : Pair) :
    (positionsIn slots p.key).find? (fun i => (pairAt? slots i).map Pair.value == some p.value) =
      (List.range slots.size).find? fun i => decide (pairAt? slots i = some p) := by
  rw [positionsIn, List.find?_filter]
  congr 1
  funext i
  cases pairAt? slots i with
  | none => simp
  | some p' =>
    rw [Bool.eq_iff_iff]
    cases p
    cases p'
    simp

/-! ### Cutting -/

/-- One cut changes the pair at its position only. -/
theorem pairAt?_cutAt (pattern : String) (s : Array (Option Pair) × Nat) (i j : Nat) :
    pairAt? (cutAt pattern s i).1 j =
      if j = i then (pairAt? s.1 j).map (Pair.cut pattern) else pairAt? s.1 j := by
  rw [cutAt]
  split
  · rename_i h
    by_cases hj : j = i <;> simp [hj, h]
  · rename_i p h
    split
    · rename_i hv
      by_cases hj : j = i <;> simp [hj, h, Pair.cut, hv]
    · rename_i v hv
      by_cases hj : j = i
      · simp [hj, h, Pair.cut, hv, lt_size_of_pairAt? h]
      · simp [hj, Ne.symm hj]

/-- One cut leaves as many slots as there were. -/
theorem size_cutAt (pattern : String) (s : Array (Option Pair) × Nat) (i : Nat) :
    (cutAt pattern s i).1.size = s.1.size := by
  rw [cutAt]
  split
  · rfl
  · split
    · rfl
    · exact Array.size_setIfInBounds

/-- One cut counts one if the value holds the pattern. -/
theorem count_cutAt (pattern : String) (s : Array (Option Pair) × Nat) (i : Nat) :
    (cutAt pattern s i).2 =
      s.2 + if (pairAt? s.1 i).any fun p => (cutValue? pattern p.value).isSome then 1 else 0 := by
  rw [cutAt]
  split
  · rename_i h
    simp [h]
  · rename_i p h
    split <;> rename_i hv <;> simp [h, hv]

/-- Cutting at distinct positions changes the pairs at these positions only, and counts
    those that hold the pattern. -/
theorem foldl_cutAt (pattern : String) {is : List Nat} (hd : is.Nodup)
    (s : Array (Option Pair) × Nat) :
    (is.foldl (cutAt pattern) s).1.size = s.1.size ∧
      (∀ j, pairAt? (is.foldl (cutAt pattern) s).1 j =
        if j ∈ is then (pairAt? s.1 j).map (Pair.cut pattern) else pairAt? s.1 j) ∧
      (is.foldl (cutAt pattern) s).2 = s.2 + is.countP fun i =>
        (pairAt? s.1 i).any fun p => (cutValue? pattern p.value).isSome := by
  induction is generalizing s with
  | nil => simp
  | cons i is ih =>
    rw [List.nodup_cons] at hd
    obtain ⟨h₁, h₂, h₃⟩ := ih hd.2 (cutAt pattern s i)
    rw [List.foldl_cons]
    refine ⟨h₁.trans (size_cutAt _ _ _), fun j => ?_, ?_⟩
    · rw [h₂, pairAt?_cutAt]
      by_cases hj : j = i
      · subst hj
        simp [hd.1]
      · simp [hj]
    · rw [h₃, count_cutAt, List.countP_cons, Nat.add_assoc]
      congr 1
      rw [Nat.add_comm]
      congr 1
      -- The first cut is at none of the positions that follow.
      refine List.countP_congr fun k hk => ?_
      rw [pairAt?_cutAt, if_neg (by rintro rfl; exact hd.1 hk)]

end QueryEdit.Query
