import Mathlib.Data.List.Nodup
import Mathlib.Data.List.Perm.Subperm
import Mathlib.Data.Nat.PSub
import QueryEdit.Proofs.Query.Refinement

/-!
# Guarded edits

The edits of a query reach its slots through the positions in the index, and keep its
size by subtraction. Both are total: outside the slots nothing is written, and what is
too small to subtract from becomes zero. Here the edits run once more behind guards
(`Query.erase?`, `Query.put?`, `Query.erasePair?`, `Query.cut?`): a slot is read or
written only if it holds a pair of the key, a number is subtracted only from one that
is not smaller, and an edit whose guard fails has no result.

What the fields of a query say of each other (`Query.Consistent`) is true of all queries
that are built and edited, and none of their edits is ever held up by a guard
(`Query.run_guarded`).

* `ValidQuery.consistent`: what makes a query valid, said slot by slot;
* `ValidQuery.erase?_eq`, `ValidQuery.put?_eq`, `ValidQuery.erasePair?_eq`,
  `ValidQuery.cut?_eq`: in a valid query a guarded edit is the edit;
* `ValidQuery.run?_eq`: a guarded run of a valid query is the run.
-/

namespace QueryEdit

namespace Query

variable {slots : Array (Option Pair)} {i j : Nat} {is : List Nat} {key : String}

/-! ### Slots of a key -/

/-- The slot at a position holds a pair of the key. -/
def Live (slots : Array (Option Pair)) (key : String) (i : Nat) : Prop :=
  ∃ value, slots[i]? = some (some ⟨key, value⟩)

/-- A live slot is one from which a pair of the key can be read. -/
theorem live_iff : Live slots key i ↔ ∃ p, pairAt? slots i = some p ∧ p.key = key := by
  simp only [pairAt?, Option.join_eq_some_iff]
  constructor
  · rintro ⟨value, h⟩
    exact ⟨⟨key, value⟩, h, rfl⟩
  · rintro ⟨p, h, rfl⟩
    exact ⟨p.value, h⟩

/-- The positions of a key are its live slots. -/
theorem mem_positionsIn_iff_live : i ∈ positionsIn slots key ↔ Live slots key i := by
  rw [mem_positionsIn, live_iff]

/-- A key has a live slot exactly if it has a pair. -/
theorem exists_live_iff : (∃ i, Live slots key i) ↔ ∃ p ∈ pairsIn slots, p.key = key := by
  simp only [live_iff, mem_pairsIn]
  constructor
  · rintro ⟨i, p, hp, hk⟩
    exact ⟨p, ⟨i, hp⟩, hk⟩
  · rintro ⟨p, ⟨i, hp⟩, hk⟩
    exact ⟨i, p, hp, hk⟩

/-- Writing to one slot leaves the others as they are. -/
theorem Live.setIfInBounds (h : Live slots key j) (hij : i ≠ j) (o : Option Pair) :
    Live (slots.setIfInBounds i o) key j := by
  obtain ⟨value, h⟩ := h
  exact ⟨value, by rw [Array.getElem?_setIfInBounds_ne hij, h]⟩

/-- Cutting keeps the keys. -/
theorem Live.cutAt {s : Array (Option Pair) × Nat} (h : Live s.1 key j) (pattern : String)
    (i : Nat) : Live (cutAt pattern s i).1 key j := by
  obtain ⟨p, hp, rfl⟩ := live_iff.1 h
  rw [live_iff, pairAt?_cutAt, hp]
  split
  · exact ⟨p.cut pattern, rfl, rfl⟩
  · exact ⟨p, rfl, rfl⟩

/-! ### What the fields say of each other -/

/-- The size, the index and the holes of a query, as its slots say. -/
structure Consistent (q : Query) : Prop where
  /-- The size is the number of slots that hold a pair. -/
  size_eq : q.size = q.slots.toList.countP Option.isSome
  /-- The keys of the index are those of the pairs in slots. -/
  contains_iff (key : String) : q.index.contains key = true ↔ ∃ i, Live q.slots key i
  /-- The entry of a key is the ascending list of its positions, and never empty. -/
  entry {key : String} {is : List Nat} : q.index[key]? = some is →
    is ≠ [] ∧ is.Pairwise (· < ·) ∧ ∀ i, i ∈ is ↔ Live q.slots key i
  /-- There are fewer than eight holes, or no more of them than pairs. -/
  holes_le : q.slots.toList.countP Option.isNone ≤ max q.size 7

/-- There are as many pairs as slots that hold one. -/
theorem length_pairsIn (slots : Array (Option Pair)) :
    (pairsIn slots).length = slots.toList.countP Option.isSome :=
  List.length_filterMap_eq_countP

/-- The positions of a key are in ascending order. -/
theorem sorted_positionsIn (slots : Array (Option Pair)) (key : String) :
    (positionsIn slots key).Pairwise (· < ·) :=
  List.pairwise_lt_range.filter _

/-- A slot holds a pair or is a hole. -/
theorem countP_isSome_add_countP_isNone (slots : Array (Option Pair)) :
    slots.toList.countP Option.isSome + slots.toList.countP Option.isNone = slots.size := by
  rw [← Array.length_toList, List.length_eq_countP_add_countP Option.isSome]
  simp only [Bool.not_eq_true, Option.isSome_eq_false_iff, Bool.decide_eq_true]

/-! ### Guards

Each edit is the one of the same name, with guards before the slots that it reaches and the
numbers that it subtracts. To find a key in the index, to add a pair or to ask for one needs none.
-/

/-- The pair at a position; none if the slot does not exist, is a hole, or holds a pair of another
    key. -/
def pairOf? (slots : Array (Option Pair)) (key : String) (i : Nat) : Option Pair :=
  (pairAt? slots i).filter fun p => p.key == key

/-- In a live slot there is a pair of the key. -/
theorem Live.exists_pairOf? (h : Live slots key i) :
    ∃ p, pairAt? slots i = some p ∧ pairOf? slots key i = some p := by
  obtain ⟨p, hp, hk⟩ := live_iff.1 h
  exact ⟨p, hp, by rw [pairOf?, Option.filter_eq_some_iff]; exact ⟨hp, beq_iff_eq.2 hk⟩⟩

/-- The slots with a hole at a position of the key. -/
def clearAt? (key : String) (slots : Array (Option Pair)) (i : Nat) :
    Option (Array (Option Pair)) :=
  (pairOf? slots key i).map fun _ => slots.setIfInBounds i none

/-- The slots with holes at the given positions of the key, one after the other. -/
def clear? (key : String) (slots : Array (Option Pair)) (is : List Nat) :
    Option (Array (Option Pair)) :=
  is.foldlM (clearAt? key) slots

/-- The query without holes, if there are many of them. -/
def compact? (q : Query) : Option Query := do
  let holes ← q.slots.size.psub q.size
  return if q.size < holes ∧ minHoles ≤ holes then ofList q.toList else q

/-- Puts holes at positions of a key, takes their number from the size, and compacts. -/
def dropAt? (q : Query) (key : String) (index : Std.TreeMap String (List Nat)) (is : List Nat) :
    Option Query := do
  let slots ← clear? key q.slots is
  let size ← q.size.psub is.length
  compact? ⟨slots, index, size⟩

/-- Drops every pair of a key. -/
def erase? (q : Query) (key : String) : Option (Query × Nat) :=
  match q.index[key]? with
  | none => some (q, 0)
  | some is => (q.dropAt? key (q.index.erase key) is).map fun r => (r, is.length)

/-- Puts one pair at the end in place of all pairs of its key. -/
def put? (q : Query) (p : Pair) : Option Query := (q.erase? p.key).map fun r => r.1.push p

/-- The first position of the key with a given value; the pairs are looked at one by one. -/
def seek? (q : Query) (p : Pair) : Option (Option Nat) :=
  (q.positions p.key).findM? fun i => (pairOf? q.slots p.key i).map fun r => r.value == p.value

/-- Drops the first pair equal to `p`. -/
def erasePair? (q : Query) (p : Pair) : Option (Query × Bool) := do
  match ← q.seek? p with
  | none => return (q, false)
  | some i =>
    let r ← q.dropAt? p.key (reindex q.index p.key ((q.positions p.key).erase i)) [i]
    return (r, true)

/-- Cuts a pattern out of the value at a position of the key. -/
def cutAt? (key pattern : String) (s : Array (Option Pair) × Nat) (i : Nat) :
    Option (Array (Option Pair) × Nat) := do
  let p ← pairOf? s.1 key i
  match cutValue? pattern p.value with
  | none => return s
  | some v => return (s.1.setIfInBounds i (some { p with value := v }), s.2 + 1)

/-- Cuts a pattern out of every value of a key. -/
def cut? (q : Query) (key pattern : String) : Option (Query × Nat) := do
  let s ← (q.positions key).foldlM (cutAt? key pattern) (q.slots, 0)
  return ({ q with slots := s.1 }, s.2)

/-- An operation on a query, guarded if it drops pairs or cuts values. -/
def step? (q : Query) : Op → Option (Answer × Query)
  | .put p => (q.put? p).map fun r => (.done, r)
  | .erase key => (q.erase? key).map fun r => (.count r.2, r.1)
  | .erasePair p => (q.erasePair? p).map fun r => (.flag r.2, r.1)
  | .cut key pattern => (q.cut? key pattern).map fun r => (.count r.2, r.1)
  | op => some (q.step op)

/-- Operations in turn, up to the first guard that fails. -/
def run? (q : Query) : List Op → Option (List Answer × Query)
  | [] => some ([], q)
  | op :: ops => do
    let (answer, q) ← q.step? op
    let (answers, q) ← q.run? ops
    return (answer :: answers, q)

/-! ### No guard fails -/

section Loops

variable {α β : Type}

/-- A loop runs to its end if every step has a result while `P` holds, and `P` of what is left to
    do is kept. -/
theorem foldlM_eq_some {f : β → α → β} {g : β → α → Option β} (P : List α → β → Prop)
    (step : ∀ a l b, P (a :: l) b → g b a = some (f b a) ∧ P l (f b a)) {l : List α} {b : β}
    (h : P l b) : l.foldlM g b = some (l.foldl f b) := by
  induction l generalizing b with
  | nil => rfl
  | cons a l ih =>
    obtain ⟨hg, hl⟩ := step a l b h
    rw [List.foldlM_cons, hg, Option.bind_eq_bind, Option.bind_some, ih hl, List.foldl_cons]

/-- A search comes to its end if every test on the way has a result. -/
theorem findM?_eq_some {f : α → Bool} {g : α → Option Bool} {l : List α}
    (h : ∀ a ∈ l, g a = some (f a)) : l.findM? g = some (l.find? f) := by
  induction l with
  | nil => rfl
  | cons a l ih =>
    rw [List.findM?, h a List.mem_cons_self, List.find?_cons, Option.bind_eq_bind,
      Option.bind_some]
    cases f a with
    | true => rfl
    | false => exact ih fun b hb => h b (List.mem_cons_of_mem a hb)

end Loops

/-- Holes are put at different live slots. -/
theorem clear?_eq (hd : is.Nodup) (h : ∀ i ∈ is, Live slots key i) :
    clear? key slots is = some (clear slots is) := by
  refine foldlM_eq_some (fun is slots => is.Nodup ∧ ∀ i ∈ is, Live slots key i) ?_ ⟨hd, h⟩
  rintro i is slots ⟨hd, h⟩
  rw [List.nodup_cons] at hd
  obtain ⟨p, -, hp⟩ := (h i List.mem_cons_self).exists_pairOf?
  refine ⟨by rw [clearAt?, hp, Option.map_some], hd.2, fun j hj => ?_⟩
  -- The positions that are left are other ones.
  exact (h j (List.mem_cons_of_mem i hj)).setIfInBounds (fun hij => hd.1 (by rwa [hij])) none

theorem cutAt?_eq {s : Array (Option Pair) × Nat} (h : Live s.1 key i) (pattern : String) :
    cutAt? key pattern s i = some (cutAt pattern s i) := by
  obtain ⟨p, hp, hp'⟩ := h.exists_pairOf?
  simp only [cutAt?, hp', cutAt, hp, Option.bind_eq_bind, Option.bind_some]
  cases cutValue? pattern p.value <;> rfl

/-- The holes can be counted if there are no fewer slots than pairs. -/
theorem compact?_eq {q : Query} (h : q.size ≤ q.slots.size) : q.compact? = some q.compact := by
  rw [compact?, Nat.psub_eq_sub h]
  rfl

end Query

namespace ValidQuery

open Query

variable (q : ValidQuery) {i : Nat} {is : List Nat} {key : String}

/-- What a valid query keeps in its fields is what its slots say. -/
theorem consistent : q.Consistent where
  size_eq := q.valid.size_eq.trans (length_pairsIn q.slots)
  contains_iff key := by
    change q.contains key = true ↔ _
    rw [contains_eq, List.any_eq_true, exists_live_iff, toList]
    simp only [beq_iff_eq]
  entry hi := by
    refine ⟨q.valid.ne_nil _ _ hi, ?_⟩
    rw [q.eq_positionsIn hi]
    exact ⟨sorted_positionsIn _ _, fun _ => mem_positionsIn_iff_live⟩
  holes_le := by
    have hs := countP_isSome_add_countP_isNone q.slots
    have hl := q.valid.size_eq.trans (length_pairsIn q.slots)
    have hh := q.valid.holes_le
    rw [holes, minHoles] at hh
    omega

/-- The index gives live slots. -/
theorem live (hi : i ∈ q.positions key) : Live q.slots key i := by
  rwa [q.valid.positions_eq, mem_positionsIn_iff_live] at hi

/-- There are as many pairs as positions of a key, or more. -/
theorem length_le (hd : is.Nodup) (hl : ∀ i ∈ is, Live q.slots key i) : is.length ≤ q.size := by
  have hs : is ⊆ positionsIn q.slots key := fun i hi => mem_positionsIn_iff_live.2 (hl i hi)
  calc is.length
    _ ≤ (positionsIn q.slots key).length := (hd.subperm hs).length_le
    _ = q.toList.countP fun p => p.key == key := (countP_pairsIn q.slots key).symm
    _ ≤ q.toList.length := List.countP_le_length
    _ = q.size := q.valid.size_eq.symm

/-- There are as many slots as pairs, or more. -/
theorem size_le : q.size ≤ q.slots.size := by
  have := countP_isSome_add_countP_isNone q.slots
  rw [q.valid.size_eq, toList, length_pairsIn]
  omega

/-- Pairs are dropped at different live slots. -/
theorem dropAt?_eq (index : Std.TreeMap String (List Nat)) (hd : is.Nodup)
    (hl : ∀ i ∈ is, Live q.slots key i) :
    q.dropAt? key index is = some (compact ⟨clear q.slots is, index, q.size - is.length⟩) := by
  rw [dropAt?, clear?_eq hd hl, Nat.psub_eq_sub (q.length_le hd hl)]
  refine compact?_eq ?_
  rw [size_clear]
  exact Nat.le_trans (Nat.sub_le _ _) q.size_le

theorem erase?_eq (key : String) : q.erase? key = some (q.toQuery.erase key) := by
  rw [erase?, Query.erase]
  cases hi : q.index[key]? with
  | none => rfl
  | some is =>
    obtain rfl := q.eq_positionsIn hi
    simp only [q.dropAt?_eq _ (nodup_positionsIn _ _) fun _ => mem_positionsIn_iff_live.1,
      Option.map_some]

/-- A guard fails: the index points at a hole. -/
example : (⟨#[none], (∅ : Std.TreeMap String (List Nat)).insert "a" [0], 1⟩ : Query).erase? "a" =
    none := rfl

theorem put?_eq (p : Pair) : q.put? p = some (q.toQuery.put p) := by
  rw [put?, erase?_eq, Option.map_some, Query.put]

/-- Every position that is looked at holds a pair of the key. -/
theorem seek?_eq (p : Pair) :
    q.seek? p = some ((q.positions p.key).find? fun i => q.valueAt? i == some p.value) := by
  refine findM?_eq_some fun i hi => ?_
  obtain ⟨r, hr, hr'⟩ := (q.live hi).exists_pairOf?
  rw [hr', valueAt?, hr, Option.map_some, Option.map_some]
  rfl

theorem erasePair?_eq (p : Pair) : q.erasePair? p = some (q.toQuery.erasePair p) := by
  simp only [erasePair?, seek?_eq, Query.erasePair, Option.bind_eq_bind, Option.bind_some]
  cases hi : (q.positions p.key).find? fun i => q.valueAt? i == some p.value with
  | none => rfl
  | some i =>
    have hl : ∀ j ∈ [i], Live q.slots p.key j := fun j hj =>
      List.mem_singleton.1 hj ▸ q.live (List.mem_of_find?_eq_some hi)
    simp only [q.dropAt?_eq _ (List.nodup_singleton i) hl, Option.bind_some]
    rfl

theorem cut?_eq (key pattern : String) :
    q.cut? key pattern = some (q.toQuery.cut key pattern) := by
  have hs : (q.positions key).foldlM (cutAt? key pattern) (q.slots, 0) =
      some ((q.positions key).foldl (cutAt pattern) (q.slots, 0)) := by
    refine foldlM_eq_some (fun is s => ∀ i ∈ is, Live s.1 key i) ?_ fun i => q.live
    intro i is s hl
    exact ⟨cutAt?_eq (hl i List.mem_cons_self) pattern,
      fun j hj => (hl j (List.mem_cons_of_mem i hj)).cutAt pattern i⟩
  rw [cut?, hs]
  rfl

/-- In a valid query a guarded operation is the operation. -/
theorem step?_eq (op : Op) : q.step? op = some (q.step op) := by
  cases op with
  | put p => rw [step?, put?_eq, Option.map_some, step]
  | erase key => rw [step?, erase?_eq, Option.map_some, step]
  | erasePair p => rw [step?, erasePair?_eq, Option.map_some, step]
  | cut key pattern => rw [step?, cut?_eq, Option.map_some, step]
  | _ => rfl

/-- A guarded run of a valid query is the run. -/
theorem run?_eq (ops : List Op) : q.run? ops = some (q.run ops) := by
  induction ops generalizing q with
  | nil => rfl
  | cons op ops ih =>
    -- The query after the first operation is valid, so that the others meet no guard either.
    have hr : run? (q.step op).2 ops = some (run (q.step op).2 ops) := ih (q.after op)
    rw [run?, step?_eq, run_cons]
    simp only [Option.bind_eq_bind, Option.bind_some, hr]
    rfl

end ValidQuery

/-- Whatever a query is built from and whatever operations run on it, its size, its index and its
    holes are in the end as its slots say. On the way every slot that an edit reads or writes holds
    a pair of the key, and nothing is subtracted from what is smaller. -/
theorem Query.run_guarded (a : Source) (ops : List Op) :
    (a.query.run ops).2.Consistent ∧ a.query.run? ops = some (a.query.run ops) :=
  ⟨(a.validQuery.afterAll ops).consistent, a.validQuery.run?_eq ops⟩

end QueryEdit
