import QueryEdit.Query.Form
import QueryEdit.Query.Slots

/-!
# Valid queries

A query is *indexed* if its size and its index say what its slots hold, and *valid*
if moreover it has few holes: fewer than `minHoles`, or no more than pairs. A
`ValidQuery` is a query together with the proof that it is valid. There is one for
every way to build a query (`ValidQuery.empty`, `ValidQuery.ofList`,
`ValidQuery.ofForm`), and every edit of one gives another (`ValidQuery.push`,
`ValidQuery.erase`, `ValidQuery.put`, `ValidQuery.erasePair`, `ValidQuery.cut`): these
are the edits of queries, with proofs.

What one sees of a valid query is decided by its pairs (`ValidQuery.getAll_eq`,
`ValidQuery.get?_eq`, `ValidQuery.last?_eq`, `ValidQuery.contains_eq`,
`ValidQuery.isEmpty_eq`, `ValidQuery.beq_eq`), and each edit does to them what the
function of `QueryEdit.Pairs` does (`ValidQuery.toList_push`, `ValidQuery.toList_erase`,
`ValidQuery.toList_put`, `ValidQuery.toList_erasePair`, `ValidQuery.toList_cut`).
-/

namespace QueryEdit

/-- The size and the index of a query say what its slots hold. -/
structure Query.Indexed (q : Query) : Prop where
  size_eq : q.size = q.toList.length
  positions_eq : ∀ key, q.positions key = positionsIn q.slots key
  /-- Keys without pairs have no entry. -/
  ne_nil : ∀ (key : String) (is : List Nat), q.index[key]? = some is → is ≠ []

/-- An indexed query with fewer than `minHoles` holes, or no more holes than pairs. -/
structure Query.Valid (q : Query) : Prop extends Indexed q where
  holes_le : q.holes ≤ max q.size (minHoles - 1)

/-- A query together with the proof that it is valid. -/
structure ValidQuery extends Query where
  valid : toQuery.Valid

namespace ValidQuery

open Query

variable (q r : ValidQuery) {i : Nat} {is : List Nat} {key : String} {p : Pair}

/-! ### Observations -/

/-- The values of a key are those of its pairs. -/
theorem getAll_eq (key : String) : q.getAll key = Pairs.valuesOf key q.toList := by
  rw [getAll, q.valid.positions_eq, toList, valuesOf_pairsIn]
  rfl

/-- Every position of a key has a value. -/
theorem exists_valueAt? (hi : i ∈ q.positions key) : ∃ v, q.valueAt? i = some v := by
  rw [q.valid.positions_eq, mem_positionsIn] at hi
  obtain ⟨p, hp, -⟩ := hi
  exact ⟨p.value, by rw [valueAt?, hp, Option.map_some]⟩

/-- The first value of a key is that of its first pair. -/
theorem get?_eq (key : String) : q.get? key = (Pairs.valuesOf key q.toList).head? := by
  rw [← getAll_eq, get?, getAll]
  have hv : ∀ i ∈ q.positions key, ∃ v, q.valueAt? i = some v := fun _ => q.exists_valueAt?
  cases hp : q.positions key with
  | nil => rfl
  | cons i is =>
    obtain ⟨v, hv⟩ := hv i (by simp [hp])
    simp [hv]

/-- The last value of a key is that of its last pair. -/
theorem last?_eq (key : String) : q.last? key = (Pairs.valuesOf key q.toList).getLast? := by
  rw [← getAll_eq, last?, getAll]
  have hv : ∀ i ∈ q.positions key, ∃ v, q.valueAt? i = some v := fun _ => q.exists_valueAt?
  rcases List.eq_nil_or_concat (q.positions key) with hp | ⟨is, i, hp⟩
  · simp [hp]
  · obtain ⟨v, hv⟩ := hv i (by simp [hp])
    simp [hp, hv]

/-- The index has a key exactly if a pair has it. -/
theorem contains_eq (key : String) : q.contains key = q.toList.any fun p => p.key == key := by
  have hn : q.contains key = !(q.positions key).isEmpty := by
    rw [contains, ← Std.TreeMap.isSome_getElem?_eq_contains, positions]
    cases hi : q.index[key]? with
    | none => rfl
    | some is => simp [q.valid.ne_nil key is hi]
  rw [hn, q.valid.positions_eq, Bool.eq_iff_iff, Bool.not_eq_true', List.isEmpty_eq_false_iff,
    ← List.length_pos_iff, ← countP_pairsIn, List.countP_pos_iff, List.any_eq_true]
  rfl

/-- A query is empty exactly if it has no pairs. -/
theorem isEmpty_eq : q.isEmpty = q.toList.isEmpty := by
  rw [isEmpty, q.valid.size_eq]
  cases q.toList <;> rfl

/-- Queries are equal exactly if their pairs are, wherever these are stored. -/
theorem beq_eq : (q.toQuery == r.toQuery) = decide (q.toList = r.toList) := by
  change (q.size == r.size && q.toList == r.toList) = _
  rw [q.valid.size_eq, r.valid.size_eq, Bool.eq_iff_iff, Bool.and_eq_true, beq_iff_eq, beq_iff_eq,
    decide_eq_true_iff]
  exact ⟨And.right, fun h => ⟨congrArg List.length h, h⟩⟩

/-! ### Building -/

/-- A pair added at the end is at one new position of its key. -/
theorem positions_push (q : Query) (p : Pair) (key : String) :
    (q.push p).positions key =
      q.positions key ++ if p.key = key then [q.slots.size] else [] := by
  rw [positions, Query.push, Std.TreeMap.getElem?_insert]
  by_cases h : p.key = key <;> simp [h, positions]

/-- The query without pairs is valid. -/
theorem valid_empty : Query.empty.Valid where
  size_eq := rfl
  positions_eq _ := by simp [positions, Query.empty, positionsIn]
  ne_nil _ _ h := by simp [Query.empty] at h
  holes_le := by decide

/-- The query without pairs. -/
def empty : ValidQuery := ⟨.empty, valid_empty⟩

/-- A query stays valid when a pair is added. -/
theorem valid_push (p : Pair) : (q.toQuery.push p).Valid where
  size_eq := by rw [Query.toList_push, List.length_append, ← q.valid.size_eq]; rfl
  positions_eq key := by rw [positions_push, q.valid.positions_eq, Query.push, positionsIn_push]
  ne_nil key is hi := by
    rw [Query.push, Std.TreeMap.getElem?_insert] at hi
    split at hi
    · rw [← Option.some.inj hi]
      simp
    · exact q.valid.ne_nil key is hi
  holes_le := by
    have := q.valid.holes_le
    simp only [holes, Query.push, Array.size_push] at this ⊢
    omega

/-- The query with a pair added at the end. -/
def push (p : Pair) : ValidQuery := ⟨q.toQuery.push p, q.valid_push p⟩

/-- A pair is added at the end. -/
@[simp] theorem toList_push (p : Pair) : (q.push p).toList = q.toList ++ [p] :=
  Query.toList_push q.toQuery p

/-- A query stays valid when pairs are added in turn. -/
theorem valid_foldl_push (ps : Pairs) : (ps.foldl Query.push q.toQuery).Valid := by
  induction ps generalizing q with
  | nil => exact q.valid
  | cons p ps ih => exact ih (q.push p)

/-- A query is valid when it is built from pairs. -/
theorem valid_ofList (ps : Pairs) : (Query.ofList ps).Valid :=
  empty.valid_foldl_push ps

/-- The query of the given pairs. -/
def ofList (ps : Pairs) : ValidQuery := ⟨.ofList ps, valid_ofList ps⟩

/-- A query has the pairs that it is built from. -/
@[simp] theorem toList_ofList (ps : Pairs) : (ofList ps).toList = ps :=
  Query.toList_ofList ps

/-- A query is valid when it is read from a form. -/
theorem valid_ofForm (s : List Char) : (Query.ofForm s).Valid :=
  valid_ofList (Pairs.ofForm s)

/-- The query of a form, which may begin with a `?`. -/
def ofForm (s : List Char) : ValidQuery := ⟨.ofForm s, valid_ofForm s⟩

/-- A query has the pairs of the form that it is read from. -/
@[simp] theorem toList_ofForm (s : List Char) : (ofForm s).toList = Pairs.ofForm s :=
  toList_ofList (Pairs.ofForm s)

/-- Rebuilding an indexed query leaves few holes. -/
theorem valid_compact {q : Query} (h : q.Indexed) : q.compact.Valid := by
  rw [compact]
  split
  · exact valid_ofList q.toList
  · rename_i hc
    refine ⟨h, ?_⟩
    rw [minHoles] at hc ⊢
    omega

/-! ### Erasing a key -/

/-- The entry of a key in the index is the list of its positions. -/
theorem eq_positionsIn (hi : q.index[key]? = some is) : is = positionsIn q.slots key := by
  rw [← q.valid.positions_eq, positions, hi, Option.getD_some]

/-- A key without an entry in the index has no positions. -/
theorem positionsIn_eq_nil (hi : q.index[key]? = none) : positionsIn q.slots key = [] := by
  rw [← q.valid.positions_eq, positions, hi, Option.getD_none]

/-- A query stays valid when a key is erased. -/
theorem valid_erase (key : String) : (q.toQuery.erase key).1.Valid := by
  rw [Query.erase]
  split
  · exact q.valid
  rename_i is hi
  rw [q.eq_positionsIn hi]
  refine valid_compact ⟨?_, fun k => ?_, fun k is hk => ?_⟩
  · have hl := List.length_eq_countP_add_countP (fun p : Pair => p.key == key) (l := q.toList)
    have hw : (Pairs.without key q.toList).length = q.toList.countP fun p => !(p.key == key) :=
      List.countP_eq_length_filter.symm
    simp only [Bool.not_eq_true, Bool.decide_eq_false] at hl
    simp only [toList] at hl hw ⊢
    rw [pairsIn_clear_positionsIn, hw, q.valid.size_eq, ← countP_pairsIn, toList]
    omega
  · rw [positionsIn_clear_positionsIn, positions, Std.TreeMap.getElem?_erase]
    by_cases hk : k = key
    · simp [hk]
    · simp [hk, Ne.symm hk, ← q.valid.positions_eq, positions]
  · rw [Std.TreeMap.getElem?_erase] at hk
    split at hk
    · contradiction
    · exact q.valid.ne_nil k is hk

/-- The query without the pairs of a key. -/
def erase (key : String) : ValidQuery := ⟨(q.toQuery.erase key).1, q.valid_erase key⟩

/-- The pairs of the key are dropped, and the others stay in order. -/
@[simp] theorem toList_erase (key : String) :
    (q.erase key).toList = Pairs.without key q.toList := by
  change (q.toQuery.erase key).1.toList = _
  rw [Query.erase, toList, toList, ← pairsIn_clear_positionsIn]
  split
  · rename_i hi
    rw [q.positionsIn_eq_nil hi]
    rfl
  · rename_i hi
    rw [q.eq_positionsIn hi]
    exact toList_compact _

/-- Erasing a key counts its pairs. -/
theorem count_erase (key : String) :
    (q.toQuery.erase key).2 = q.toList.countP fun p => p.key == key := by
  rw [toList, countP_pairsIn, Query.erase]
  split
  · rename_i hi
    rw [q.positionsIn_eq_nil hi, List.length_nil]
  · rename_i hi
    rw [q.eq_positionsIn hi]

/-- The query with one pair at the end in place of all pairs of its key. -/
def put (p : Pair) : ValidQuery := (q.erase p.key).push p

/-- The pairs of the key are dropped, and the new one is put at the end. -/
@[simp] theorem toList_put (p : Pair) : (q.put p).toList = Pairs.put p q.toList := by
  rw [put, toList_push, toList_erase, Pairs.put]

/-! ### Erasing a pair -/

/-- The position that is cleared is the first one of the pair. -/
theorem find?_positions (p : Pair) :
    ((q.positions p.key).find? fun i => q.valueAt? i == some p.value) =
      (List.range q.slots.size).find? fun i => decide (pairAt? q.slots i = some p) := by
  rw [q.valid.positions_eq]
  exact find?_positionsIn q.slots p

/-- Where no position is found, the pair is not one of the query. -/
theorem not_mem_of_find?
    (hn : ((q.positions p.key).find? fun i => q.valueAt? i == some p.value) = none) :
    p ∉ q.toList := by
  rw [find?_positions, List.find?_eq_none] at hn
  rw [toList, mem_pairsIn]
  rintro ⟨i, hi⟩
  exact hn i (List.mem_range.2 (lt_size_of_pairAt? hi)) (decide_eq_true hi)

/-- The position that is found is that of the first such pair. -/
theorem first_of_find?
    (hi : ((q.positions p.key).find? fun i => q.valueAt? i == some p.value) = some i) :
    pairAt? q.slots i = some p ∧ ∀ j < i, pairAt? q.slots j ≠ some p := by
  rw [find?_positions, List.find?_range_eq_some] at hi
  exact ⟨by simpa using hi.1, fun j hj => by simpa using hi.2.2 j hj⟩

/-- A query stays valid when a pair is erased. -/
theorem valid_erasePair (p : Pair) : (q.toQuery.erasePair p).1.Valid := by
  simp only [Query.erasePair]
  split
  · exact q.valid
  rename_i i hi
  obtain ⟨hp, hlt⟩ := q.first_of_find? hi
  refine valid_compact ⟨?_, fun k => ?_, fun k is hk => ?_⟩
  · rw [toList, pairsIn_clear_singleton hp hlt,
      List.length_erase_of_mem (mem_pairsIn.2 ⟨i, hp⟩), q.valid.size_eq, toList]
  · rw [positionsIn_clear_singleton hp, positions, reindex, q.valid.positions_eq]
    split
    · rename_i he
      rw [Std.TreeMap.getElem?_erase]
      by_cases hk : k = p.key
      · simp [hk, List.isEmpty_iff.1 he]
      · simp [hk, Ne.symm hk, ← q.valid.positions_eq, positions]
    · rw [Std.TreeMap.getElem?_insert]
      by_cases hk : k = p.key
      · simp [hk]
      · simp [hk, Ne.symm hk, ← q.valid.positions_eq, positions]
  · rw [reindex] at hk
    split at hk
    · rw [Std.TreeMap.getElem?_erase] at hk
      split at hk
      · contradiction
      · exact q.valid.ne_nil k is hk
    · rename_i he
      rw [Std.TreeMap.getElem?_insert] at hk
      split at hk
      · rw [← Option.some.inj hk]
        simpa using he
      · exact q.valid.ne_nil k is hk

/-- The query without the first pair equal to `p`. -/
def erasePair (p : Pair) : ValidQuery := ⟨(q.toQuery.erasePair p).1, q.valid_erasePair p⟩

/-- The first pair equal to `p` is dropped. -/
@[simp] theorem toList_erasePair (p : Pair) :
    (q.erasePair p).toList = Pairs.withoutPair p q.toList := by
  change (q.toQuery.erasePair p).1.toList = _
  simp only [Query.erasePair]
  split
  · rename_i hn
    rw [Pairs.withoutPair, List.erase_of_not_mem (q.not_mem_of_find? hn)]
  · rename_i i hi
    obtain ⟨hp, hlt⟩ := q.first_of_find? hi
    rw [toList_compact]
    exact pairsIn_clear_singleton hp hlt

/-- Erasing a pair tells whether there was one. -/
theorem found_erasePair (p : Pair) : (q.toQuery.erasePair p).2 = decide (p ∈ q.toList) := by
  simp only [Query.erasePair]
  split
  · rename_i hn
    exact (decide_eq_false (q.not_mem_of_find? hn)).symm
  · rename_i i hi
    exact (decide_eq_true (mem_pairsIn.2 ⟨i, (q.first_of_find? hi).1⟩)).symm

/-! ### Cutting -/

/-- Cutting keeps the slots where they are. -/
theorem size_slots_cut (key pattern : String) :
    (q.toQuery.cut key pattern).1.slots.size = q.slots.size := by
  simp only [Query.cut, q.valid.positions_eq]
  exact (foldl_cutAt pattern (nodup_positionsIn q.slots key) (q.slots, 0)).1

/-- Cutting changes the pairs of the key, each in its place. -/
theorem pairAt?_cut (key pattern : String) (i : Nat) :
    pairAt? (q.toQuery.cut key pattern).1.slots i =
      (pairAt? q.slots i).map fun p => if p.key = key then p.cut pattern else p := by
  simp only [Query.cut, q.valid.positions_eq]
  rw [(foldl_cutAt pattern (nodup_positionsIn q.slots key) (q.slots, 0)).2.1]
  simp only [mem_positionsIn]
  cases pairAt? q.slots i with
  | none => simp
  | some p => by_cases hk : p.key = key <;> simp [hk]

/-- Cutting goes pair by pair. -/
theorem toList_fst_cut (key pattern : String) :
    (q.toQuery.cut key pattern).1.toList = Pairs.cut key pattern q.toList := by
  rw [toList, toList, pairsIn_eq, size_slots_cut, pairsIn_eq, Pairs.cut, List.map_filterMap]
  exact congrArg (List.filterMap · _) (funext (q.pairAt?_cut key pattern))

/-- A query stays valid when values are cut. -/
theorem valid_cut (key pattern : String) : (q.toQuery.cut key pattern).1.Valid where
  size_eq := by rw [toList_fst_cut, Pairs.cut, List.length_map]; exact q.valid.size_eq
  positions_eq k := by
    refine (q.valid.positions_eq k).trans ?_
    rw [positionsIn, positionsIn, size_slots_cut]
    refine List.filter_congr fun i _ => ?_
    rw [pairAt?_cut]
    cases pairAt? q.slots i with
    | none => rfl
    | some p => by_cases hk : p.key = key <;> simp [hk, Pair.cut]
  ne_nil := q.valid.ne_nil
  holes_le := by
    rw [holes, size_slots_cut]
    exact q.valid.holes_le

/-- The query with a pattern cut out of every value of a key. -/
def cut (key pattern : String) : ValidQuery :=
  ⟨(q.toQuery.cut key pattern).1, q.valid_cut key pattern⟩

/-- The pattern is cut out of the values of the key, each in its place. -/
@[simp] theorem toList_cut (key pattern : String) :
    (q.cut key pattern).toList = Pairs.cut key pattern q.toList :=
  q.toList_fst_cut key pattern

/-- Cutting counts the values that hold the pattern. -/
theorem count_cut (key pattern : String) :
    (q.toQuery.cut key pattern).2 = Pairs.countCut key pattern q.toList := by
  simp only [Query.cut, q.valid.positions_eq]
  rw [(foldl_cutAt pattern (nodup_positionsIn q.slots key) (q.slots, 0)).2.2, Nat.zero_add,
    Pairs.countCut, toList, valuesOf_pairsIn, List.countP_filterMap]
  refine List.countP_congr fun i _ => ?_
  cases pairAt? q.slots i <;> simp

end ValidQuery

end QueryEdit
