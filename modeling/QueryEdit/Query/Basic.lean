import QueryEdit.Pairs
import Std.Data.TreeMap

/-!
# Queries

A query stores its pairs in slots, in order. Removing a pair leaves a hole in its
slot, so the other pairs keep their positions, and an index gives the positions of
the pairs of each key. Edits of one key thus touch the slots of that key only.

When holes outnumber the pairs, and there are at least `minHoles` of them, the
query is rebuilt without holes (`Query.compact`).

What a query means is the sequence of its pairs, `Query.toList`; equality (`==`)
compares nothing else. Each edit does to that sequence what the function of
`QueryEdit.Pairs` does to a plain one.
-/

namespace QueryEdit

/-- An ordered multimap from keys to values. -/
structure Query where
  /-- The pairs in order, and the holes between them. -/
  slots : Array (Option Pair) := #[]
  /-- The positions of the pairs of each key, ascending. -/
  index : Std.TreeMap String (List Nat) := ∅
  /-- The number of pairs. -/
  size : Nat := 0

namespace Query

/-- The query without pairs. -/
def empty : Query := {}

/-! ### Observations -/

/-- The pairs in slots, in order. -/
def pairsIn (slots : Array (Option Pair)) : Pairs := slots.toList.filterMap id

/-- The pairs in order. -/
def toList (q : Query) : Pairs := pairsIn q.slots

/-- The pair at a position; none at a hole. -/
def pairAt? (slots : Array (Option Pair)) (i : Nat) : Option Pair := slots[i]?.join

/-- The positions of the pairs of a key. -/
def positions (q : Query) (key : String) : List Nat := (q.index[key]?).getD []

/-- The value at a position. -/
def valueAt? (q : Query) (i : Nat) : Option String := (pairAt? q.slots i).map Pair.value

/-- The first value of a key. -/
def get? (q : Query) (key : String) : Option String := (q.positions key).head?.bind q.valueAt?

/-- The last value of a key. -/
def last? (q : Query) (key : String) : Option String := (q.positions key).getLast?.bind q.valueAt?

/-- All values of a key, in order. -/
def getAll (q : Query) (key : String) : List String := (q.positions key).filterMap q.valueAt?

/-- Whether a key has a pair. -/
def contains (q : Query) (key : String) : Bool := q.index.contains key

/-- The keys of the pairs, one for each pair. -/
def keys (q : Query) : List String := q.toList.map Pair.key

/-- Whether the query has no pair. -/
def isEmpty (q : Query) : Bool := q.size == 0

/-- The number of slots without a pair. -/
def holes (q : Query) : Nat := q.slots.size - q.size

instance : BEq Query := ⟨fun q r => q.size == r.size && q.toList == r.toList⟩

/-! ### Building -/

/-- The query with a pair added at the end. -/
def push (q : Query) (p : Pair) : Query where
  slots := q.slots.push (some p)
  index := q.index.insert p.key (q.positions p.key ++ [q.slots.size])
  size := q.size + 1

/-- The query of the given pairs. -/
def ofList (ps : Pairs) : Query := ps.foldl push empty

@[simp] theorem toList_empty : empty.toList = [] := rfl

@[simp] theorem toList_push (q : Query) (p : Pair) : (q.push p).toList = q.toList ++ [p] := by
  simp [toList, pairsIn, push]

theorem toList_foldl_push (ps : Pairs) (q : Query) :
    (ps.foldl push q).toList = q.toList ++ ps := by
  induction ps generalizing q with
  | nil => simp
  | cons p ps ih => simp [ih]

@[simp] theorem toList_ofList (ps : Pairs) : (ofList ps).toList = ps := by
  simp [ofList, toList_foldl_push]

/-- The least number of holes for which a query is rebuilt. -/
def minHoles : Nat := 8

/-- The query without holes, if there are more of them than pairs and at least `minHoles`. -/
def compact (q : Query) : Query :=
  if q.size < q.holes ∧ minHoles ≤ q.holes then ofList q.toList else q

@[simp] theorem toList_compact (q : Query) : q.compact.toList = q.toList := by
  rw [compact]
  split
  · exact toList_ofList _
  · rfl

/-! ### Edits -/

/-- The slots with holes at the given positions. -/
def clear (slots : Array (Option Pair)) (is : List Nat) : Array (Option Pair) :=
  is.foldl (fun slots i => slots.setIfInBounds i none) slots

/-- Drops every pair of a key. Gives also the number of pairs dropped. -/
def erase (q : Query) (key : String) : Query × Nat :=
  match q.index[key]? with
  | none => (q, 0)
  | some is =>
    (compact ⟨clear q.slots is, q.index.erase key, q.size - is.length⟩, is.length)

/-- Puts one pair at the end in place of all pairs of its key. -/
def put (q : Query) (p : Pair) : Query := (q.erase p.key).1.push p

/-- The index with the given positions for a key; a key without positions has no entry. -/
def reindex (index : Std.TreeMap String (List Nat)) (key : String) (is : List Nat) :
    Std.TreeMap String (List Nat) :=
  if is.isEmpty then index.erase key else index.insert key is

/-- Drops the first pair equal to `p`. Gives also whether there was one. -/
def erasePair (q : Query) (p : Pair) : Query × Bool :=
  let is := q.positions p.key
  match is.find? fun i => q.valueAt? i == some p.value with
  | none => (q, false)
  | some i =>
    (compact ⟨clear q.slots [i], reindex q.index p.key (is.erase i), q.size - 1⟩, true)

/-- Cuts a pattern out of the value at a position. Counts the value if it changed. -/
def cutAt (pattern : String) (s : Array (Option Pair) × Nat) (i : Nat) :
    Array (Option Pair) × Nat :=
  match pairAt? s.1 i with
  | none => s
  | some p =>
    match cutValue? pattern p.value with
    | none => s
    | some v => (s.1.setIfInBounds i (some { p with value := v }), s.2 + 1)

/-- Cuts a pattern out of every value of a key. Gives also the number of values that held it. -/
def cut (q : Query) (key pattern : String) : Query × Nat :=
  let s := (q.positions key).foldl (cutAt pattern) (q.slots, 0)
  ({ q with slots := s.1 }, s.2)

end Query

end QueryEdit
