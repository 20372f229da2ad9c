import Mathlib.Data.List.Forall2
import QueryEdit.Query.Op
import QueryEdit.Query.Valid
import QueryEdit.Text.Cut.Lemmas

/-!
# Queries as plain sequences

A query cannot be told from the sequence of its pairs: whatever it is built from
(`Query.Source`) and whatever operations run on it, its answers are those of the
plain sequence, and so are its pairs in the end (`Query.run_refines`). Holes, and the
rebuilding that removes them, are never seen.

One operation on a valid query does what it does to the pairs (`ValidQuery.answer_step`,
`ValidQuery.toList_after`), and the query after it is valid again (`ValidQuery.after`); the
rest is by induction on the operations (`ValidQuery.run_eq`).

What cutting does to the pairs is said once more without the search for the pattern
(`Pair.IsCut`).
-/

namespace QueryEdit

/-! ### Cutting values -/

/-- The pattern, which is not empty, occurs in the value of the pair, which is one of the key. -/
def Pair.Holds (key pattern : String) (p : Pair) : Prop :=
  p.key = key ∧ pattern ≠ "" ∧ pattern.toList <:+: p.value.toList

instance (key pattern : String) (p : Pair) : Decidable (p.Holds key pattern) :=
  inferInstanceAs (Decidable (_ ∧ _ ∧ _))

/-- What cutting a pattern out of the values of a key makes of a pair: the text around the first
    occurrence of the pattern is left, and trimmed. A pair that does not hold the pattern stays. -/
inductive Pair.IsCut (key pattern : String) (p : Pair) : Pair → Prop
  | cut {a b : List Char} : p.key = key → pattern ≠ "" →
      p.value.toList = a ++ pattern.toList ++ b →
      (∀ a' b', p.value.toList = a' ++ pattern.toList ++ b' → a.length ≤ a'.length) →
      IsCut key pattern p ⟨p.key, String.ofList (Text.trim (a ++ b))⟩
  | keep : ¬p.Holds key pattern → IsCut key pattern p p

/-- A value is cut exactly if the pattern, which is not empty, occurs in it. -/
theorem isSome_cutValue?_iff {pattern value : String} :
    (cutValue? pattern value).isSome = true ↔
      pattern ≠ "" ∧ pattern.toList <:+: value.toList := by
  rw [cutValue?]
  split_ifs with he
  · rw [String.isEmpty_iff] at he
    exact ⟨fun h => absurd h Bool.false_ne_true, fun h => absurd he h.1⟩
  · rw [String.isEmpty_iff] at he
    rw [Option.isSome_map, ← Option.ne_none_iff_isSome, ne_eq, Text.excise?_eq_none_iff]
    push Not
    exact ⟨fun ⟨a, b, h⟩ => ⟨he, a, b, h.symm⟩, fun ⟨_, a, b, h⟩ => ⟨a, b, h.symm⟩⟩

/-- A value that is cut is the trimmed text around the first occurrence of the pattern. -/
theorem exists_of_cutValue? {pattern value v : String} (h : cutValue? pattern value = some v) :
    ∃ a b, value.toList = a ++ pattern.toList ++ b ∧
      (∀ a' b', value.toList = a' ++ pattern.toList ++ b' → a.length ≤ a'.length) ∧
      v = String.ofList (Text.trim (a ++ b)) := by
  rw [cutValue?] at h
  split_ifs at h
  obtain ⟨r, hr, rfl⟩ := Option.map_eq_some_iff.1 h
  obtain ⟨a, b, hs, rfl, hfirst⟩ := Text.exists_of_excise? hr
  exact ⟨a, b, hs, hfirst, rfl⟩

/-- The pairs of the key are cut. -/
theorem Pair.isCut (key pattern : String) (p : Pair) :
    p.IsCut key pattern (if p.key = key then p.cut pattern else p) := by
  split_ifs with hk
  · rw [Pair.cut]
    cases hv : cutValue? pattern p.value with
    | none =>
      refine .keep fun hh => ?_
      have := isSome_cutValue?_iff.2 hh.2
      rw [hv] at this
      contradiction
    | some v =>
      obtain ⟨a, b, hs, hfirst, rfl⟩ := exists_of_cutValue? hv
      exact .cut hk (isSome_cutValue?_iff.1 (by rw [hv]; rfl)).1 hs hfirst
  · exact .keep fun hh => hk hh.1

namespace Pairs

/-- Cutting goes pair by pair. -/
theorem isCut (key pattern : String) (ps : Pairs) :
    List.Forall₂ (Pair.IsCut key pattern) ps (cut key pattern ps) := by
  rw [cut, List.forall₂_map_right_iff, List.forall₂_same]
  exact fun p _ => p.isCut key pattern

/-- The values that are counted are those that hold the pattern. -/
theorem countCut_eq (key pattern : String) (ps : Pairs) :
    countCut key pattern ps = ps.countP fun p => decide (p.Holds key pattern) := by
  rw [countCut, valuesOf, List.countP_map, List.countP_filter]
  refine List.countP_congr fun p _ => ?_
  rw [Bool.and_eq_true, beq_iff_eq, decide_eq_true_iff, Function.comp_apply,
    isSome_cutValue?_iff, and_comm, Pair.Holds]

end Pairs

/-! ### Operations -/

namespace ValidQuery

open Query

variable (q : ValidQuery)

/-- Cutting goes pair by pair, and leaves the text around the pattern. -/
theorem isCut_cut (key pattern : String) :
    List.Forall₂ (Pair.IsCut key pattern) q.toList (q.cut key pattern).toList := by
  rw [toList_cut]
  exact Pairs.isCut key pattern q.toList

/-- Cutting counts the pairs that hold the pattern. -/
theorem countP_holds (key pattern : String) :
    (q.toQuery.cut key pattern).2 = q.toList.countP fun p => decide (p.Holds key pattern) := by
  rw [count_cut, Pairs.countCut_eq]

/-- An operation answers for the pairs of the query. -/
theorem answer_step (op : Op) : (q.step op).1 = (Pairs.step q.toList op).1 := by
  cases op with
  | append p => rfl
  | put p => rfl
  | erase key => exact congrArg Answer.count (q.count_erase key)
  | erasePair p => exact congrArg Answer.flag (q.found_erasePair p)
  | cut key pattern => exact congrArg Answer.count (q.count_cut key pattern)
  | get key => exact congrArg Answer.value (q.get?_eq key)
  | last key => exact congrArg Answer.value (q.last?_eq key)
  | getAll key => exact congrArg Answer.texts (q.getAll_eq key)
  | contains key => exact congrArg Answer.flag (q.contains_eq key)
  | size => exact congrArg Answer.count q.valid.size_eq
  | isEmpty => exact congrArg Answer.flag q.isEmpty_eq
  | pairs => rfl
  | keys => rfl
  | form => rfl
  | equals form =>
    refine congrArg Answer.flag ((q.beq_eq (ofForm form.toList)).trans ?_)
    rw [toList_ofForm]

/-- A query stays valid under every operation. -/
theorem valid_step (op : Op) : (q.step op).2.Valid := by
  cases op with
  | append p => exact (q.push p).valid
  | put p => exact (q.put p).valid
  | erase key => exact (q.erase key).valid
  | erasePair p => exact (q.erasePair p).valid
  | cut key pattern => exact (q.cut key pattern).valid
  | _ => exact q.valid

/-- The query after an operation. -/
def after (op : Op) : ValidQuery := ⟨(q.step op).2, q.valid_step op⟩

/-- An operation does to the pairs of the query what it does to a plain sequence. -/
theorem toList_after (op : Op) : (q.after op).toList = (Pairs.step q.toList op).2 := by
  cases op with
  | append p => exact q.toList_push p
  | put p => exact q.toList_put p
  | erase key => exact q.toList_erase key
  | erasePair p => exact q.toList_erasePair p
  | cut key pattern => exact q.toList_cut key pattern
  | _ => rfl

/-! ### Runs -/

/-- A query is valid after a run. -/
theorem valid_run (ops : List Op) : (q.run ops).2.Valid := by
  induction ops generalizing q with
  | nil => exact q.valid
  | cons op ops ih => exact ih (q.after op)

/-- The query after operations in turn. -/
def afterAll (ops : List Op) : ValidQuery := ⟨(q.run ops).2, q.valid_run ops⟩

/-- A run answers and ends as it does on the pairs. -/
theorem run_eq (ops : List Op) :
    (q.run ops).1 = (Pairs.run q.toList ops).1 ∧
      (q.afterAll ops).toList = (Pairs.run q.toList ops).2 := by
  induction ops generalizing q with
  | nil => exact ⟨rfl, rfl⟩
  | cons op ops ih =>
    -- The query after the first operation is valid again, and has the pairs of the sequence.
    obtain ⟨ha, hl⟩ := ih (q.after op)
    rw [toList_after] at ha hl
    rw [run_cons, Pairs.run_cons, answer_step]
    exact ⟨congrArg (_ :: ·) ha, hl⟩

end ValidQuery

namespace Query

/-- What a query is built from. -/
inductive Source where
  | nothing
  | form (s : String)
  | pairs (ps : Pairs)

/-- The query that is built. -/
def Source.query : Source → Query
  | nothing => .empty
  | form s => .ofForm s.toList
  | pairs ps => .ofList ps

/-- The plain sequence to begin with. -/
def Source.toPairs : Source → Pairs
  | nothing => []
  | form s => Pairs.ofForm s.toList
  | pairs ps => ps

/-- Whatever a query is built from, it is valid. -/
theorem Source.valid_query (a : Source) : a.query.Valid := by
  cases a with
  | nothing => exact ValidQuery.valid_empty
  | form s => exact ValidQuery.valid_ofForm s.toList
  | pairs ps => exact ValidQuery.valid_ofList ps

/-- The query that is built, with the proof that it is valid. -/
def Source.validQuery (a : Source) : ValidQuery := ⟨a.query, a.valid_query⟩

/-- A query has the pairs of the sequence that it is built from. -/
theorem Source.toList_validQuery (a : Source) : a.validQuery.toList = a.toPairs := by
  cases a with
  | nothing => rfl
  | form s => exact ValidQuery.toList_ofForm s.toList
  | pairs ps => exact ValidQuery.toList_ofList ps

/-- A run on a query gives the answers and the pairs of the run on a plain sequence. Two queries
    are equal after their runs exactly if the sequences are, and cutting a pattern out of a query
    after a run cuts and counts the values that hold the pattern. -/
theorem run_refines (a b : Source) (ops ops' : List Op) :
    (a.query.run ops).1 = (Pairs.run a.toPairs ops).1 ∧
    (a.query.run ops).2.toList = (Pairs.run a.toPairs ops).2 ∧
    ((a.query.run ops).2 == (b.query.run ops').2) =
      decide ((Pairs.run a.toPairs ops).2 = (Pairs.run b.toPairs ops').2) ∧
    ∀ key pattern,
      List.Forall₂ (Pair.IsCut key pattern) (Pairs.run a.toPairs ops).2
        ((a.query.run ops).2.cut key pattern).1.toList ∧
      ((a.query.run ops).2.cut key pattern).2 =
        (Pairs.run a.toPairs ops).2.countP fun p => decide (p.Holds key pattern) := by
  obtain ⟨ha, hl⟩ := a.validQuery.run_eq ops
  obtain ⟨-, hl'⟩ := b.validQuery.run_eq ops'
  rw [Source.toList_validQuery] at ha hl hl'
  refine ⟨ha, hl, ?_, fun key pattern => ⟨?_, ?_⟩⟩
  · rw [← hl, ← hl']
    exact (a.validQuery.afterAll ops).beq_eq (b.validQuery.afterAll ops')
  · rw [← hl]
    exact (a.validQuery.afterAll ops).isCut_cut key pattern
  · rw [← hl]
    exact (a.validQuery.afterAll ops).countP_holds key pattern

end Query

end QueryEdit
