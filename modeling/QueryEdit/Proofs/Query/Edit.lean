import QueryEdit.Mutation
import QueryEdit.Query.Valid

/-!
# Mutations of plain sequences

A mutation of a valid query gives another one (`ValidQuery.edit`), and does to its pairs
what it does to a plain sequence of pairs (`ValidQuery.toList_edit`). So the pairs after
mutations in turn depend on the pairs before them only, and not on the slots that they
are stored in (`ValidQuery.toList_editAll`).
-/

namespace QueryEdit

namespace Pairs

/-- The number in the last value of a key; 0 if there is no value or it is no number. -/
def number (key : String) (ps : Pairs) : Int64 :=
  ((valuesOf key ps).getLast?.bind fun v => Decimal.readInt64? (Text.trim v.toList)).getD 0

/-- Puts a number in place of all values of a key, stopping at the bounds of 64 bits. -/
def putNumber (key : String) (n : Int) (ps : Pairs) : Pairs :=
  put ⟨key, (Value.int (Int64.ofIntClamp n)).toText⟩ ps

/-- The pairs after a mutation. -/
def edit (ps : Pairs) : Mutation → Pairs
  | .set key v => v.toQuery?.elim (without key ps) fun text => put ⟨key, text⟩ ps
  | .add key text => ps ++ [⟨key, text⟩]
  | .remove key text => withoutPair ⟨key, text⟩ ps
  | .replace key pattern => cut key pattern ps
  | .inc key amount => putNumber key ((number key ps).toInt + amount.toInt) ps
  | .dec key amount => putNumber key ((number key ps).toInt - amount.toInt) ps

/-- The pairs after mutations in turn. -/
def editAll (ps : Pairs) (ms : List Mutation) : Pairs := ms.foldl edit ps

end Pairs

namespace ValidQuery

variable (q : ValidQuery)

/-- The number of a key is read from its pairs. -/
theorem number_eq (key : String) : q.number key = Pairs.number key q.toList := by
  rw [Query.number, last?_eq, Pairs.number]

/-- A query stays valid under every mutation. -/
theorem valid_edit (m : Mutation) : (q.toQuery.edit m).Valid := by
  cases m with
  | set key v =>
    rw [Query.edit]
    split
    · exact (q.put _).valid
    · exact (q.erase key).valid
  | add key text => exact (q.push ⟨key, text⟩).valid
  | remove key text => exact (q.erasePair ⟨key, text⟩).valid
  | replace key pattern => exact (q.cut key pattern).valid
  | inc key amount | dec key amount => exact (q.put _).valid

/-- The query after a mutation. -/
def edit (m : Mutation) : ValidQuery := ⟨q.toQuery.edit m, q.valid_edit m⟩

/-- A mutation does to the pairs of a query what it does to a plain sequence. -/
@[simp] theorem toList_edit (m : Mutation) : (q.edit m).toList = Pairs.edit q.toList m := by
  change (q.toQuery.edit m).toList = _
  cases m with
  | set key v =>
    rw [Query.edit, Pairs.edit]
    cases v.toQuery? with
    | none => exact q.toList_erase key
    | some text => exact q.toList_put ⟨key, text⟩
  | add key text => exact q.toList_push ⟨key, text⟩
  | remove key text => exact q.toList_erasePair ⟨key, text⟩
  | replace key pattern => exact q.toList_cut key pattern
  | inc key amount | dec key amount =>
    rw [Query.edit, Pairs.edit, number_eq]
    exact q.toList_put _

/-- A query stays valid under mutations in turn. -/
theorem valid_foldl_edit (ms : List Mutation) : (ms.foldl Query.edit q.toQuery).Valid := by
  induction ms generalizing q with
  | nil => exact q.valid
  | cons m ms ih => exact ih (q.edit m)

/-- The query after mutations in turn. -/
def editAll (ms : List Mutation) : ValidQuery :=
  ⟨ms.foldl Query.edit q.toQuery, q.valid_foldl_edit ms⟩

/-- Mutations in turn do to the pairs of a query what they do to a plain sequence. -/
@[simp] theorem toList_editAll (ms : List Mutation) :
    (q.editAll ms).toList = Pairs.editAll q.toList ms := by
  induction ms generalizing q with
  | nil => rfl
  | cons m ms ih =>
    refine (ih (q.edit m)).trans ?_
    rw [toList_edit]
    rfl

end ValidQuery

/-- Mutations in turn change the query of a URL only. -/
theorem Url.editAll_eq (u : Url) (ms : List Mutation) :
    u.editAll ms = { u with query := ms.foldl Query.edit u.query } := by
  induction ms generalizing u with
  | nil => rfl
  | cons m ms ih => exact ih (u.edit m)

@[simp] theorem Url.location_editAll (u : Url) (ms : List Mutation) :
    (u.editAll ms).location = u.location := by
  rw [editAll_eq]

@[simp] theorem Url.query_editAll (u : Url) (ms : List Mutation) :
    (u.editAll ms).query = ms.foldl Query.edit u.query := by
  rw [editAll_eq]

@[simp] theorem Url.fragment_editAll (u : Url) (ms : List Mutation) :
    (u.editAll ms).fragment = u.fragment := by
  rw [editAll_eq]

end QueryEdit
