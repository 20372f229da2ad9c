import QueryEdit.Proofs.Url.Reachable

/-!
# Keys are independent

What one sees of some keys of a query is the sequence of their pairs (`Pairs.ofKeys`).
A mutation of one of these keys does to this sequence what it does to all pairs
(`Pairs.ofKeys_edit`), and a mutation of any other key leaves it as it is
(`Pairs.ofKeys_edit_of_false`). So of mutations in turn only those of the chosen keys
count (`Pairs.ofKeys_editAll`).

* For a single key this says that its values depend on the mutations of this key alone;
* for the keys that are never mutated, that their pairs stay as they are.

`Url.Reachable.get?_getAll_editAll` says both of reachable URLs.
-/

namespace QueryEdit

namespace Pairs

/-- The pairs of some keys, in order. -/
def ofKeys (f : String → Bool) (ps : Pairs) : Pairs := ps.filter fun p => f p.key

variable {f : String → Bool} {key : String}

/-! ### Edits of chosen keys -/

/-- Pairs behind others are chosen behind them. -/
theorem ofKeys_append (f : String → Bool) (ps qs : Pairs) :
    ofKeys f (ps ++ qs) = ofKeys f ps ++ ofKeys f qs :=
  List.filter_append ps qs

/-- A pair is chosen by its key. -/
theorem ofKeys_singleton (f : String → Bool) (p : Pair) :
    ofKeys f [p] = if f p.key then [p] else [] := by
  rw [ofKeys, List.filter_singleton, Bool.cond_eq_ite]

/-- To drop the pairs of a key and to choose pairs go in either order. -/
theorem ofKeys_without (f : String → Bool) (key : String) (ps : Pairs) :
    ofKeys f (without key ps) = without key (ofKeys f ps) :=
  List.filter_comm _ _ ps

/-- To drop a pair and to choose pairs go in either order. -/
theorem ofKeys_withoutPair (f : String → Bool) (p : Pair) (ps : Pairs) :
    ofKeys f (withoutPair p ps) = withoutPair p (ofKeys f ps) :=
  List.erase_filter.symm

/-- To cut values and to choose pairs go in either order. -/
theorem ofKeys_cut (f : String → Bool) (key pattern : String) (ps : Pairs) :
    ofKeys f (cut key pattern ps) = cut key pattern (ofKeys f ps) := by
  rw [ofKeys, cut, List.filter_map]
  -- Cutting changes no keys, so the same pairs are chosen before and after it.
  refine congrArg (List.map _) (List.filter_congr fun p _ => ?_)
  rw [Function.comp_apply]
  split_ifs <;> rfl

/-- A chosen key keeps all its values. -/
theorem valuesOf_ofKeys (h : f key = true) (ps : Pairs) :
    valuesOf key (ofKeys f ps) = valuesOf key ps := by
  rw [valuesOf, ofKeys, List.filter_filter]
  refine congrArg (List.map _) (List.filter_congr fun p _ => ?_)
  rw [Bool.and_eq_left_iff_imp, beq_iff_eq]
  rintro rfl
  exact h

/-- A pair of a chosen key is put among the pairs that are chosen. -/
theorem ofKeys_put {p : Pair} (h : f p.key = true) (ps : Pairs) :
    ofKeys f (put p ps) = put p (ofKeys f ps) := by
  rw [put, ofKeys_append, ofKeys_singleton, if_pos h, ofKeys_without, put]

/-- A mutation of a chosen key goes for the pairs that are chosen. -/
theorem ofKeys_edit {m : Mutation} (h : f m.key = true) (ps : Pairs) :
    ofKeys f (edit ps m) = edit (ofKeys f ps) m := by
  cases m with
  | set key v =>
    rw [edit, edit]
    cases v.toQuery? with
    | none => exact ofKeys_without f key ps
    | some text => exact ofKeys_put h ps
  | add key text =>
    rw [Mutation.key] at h
    rw [edit, edit, ofKeys_append, ofKeys_singleton, if_pos h]
  | remove key text => exact ofKeys_withoutPair f _ ps
  | replace key pattern => exact ofKeys_cut f key pattern ps
  | inc key amount | dec key amount =>
    -- The number that is counted from is that of a chosen key.
    rw [Mutation.key] at h
    rw [edit, edit, number, number, valuesOf_ofKeys h]
    exact ofKeys_put h ps

/-! ### Edits of other keys -/

/-- A pair that is chosen has none of the other keys. -/
theorem key_ne_of_mem_ofKeys (h : f key = false) {p : Pair} {ps : Pairs} (hp : p ∈ ofKeys f ps) :
    p.key ≠ key := by
  rintro rfl
  exact Bool.eq_false_iff.1 h (List.mem_filter.1 hp).2

/-- None of the pairs that are chosen is dropped with another key. -/
theorem ofKeys_without_of_false (h : f key = false) (ps : Pairs) :
    ofKeys f (without key ps) = ofKeys f ps := by
  rw [ofKeys_without, without, List.filter_eq_self]
  exact fun p hp => bne_iff_ne.2 (key_ne_of_mem_ofKeys h hp)

/-- A pair of another key is put nowhere among those that are chosen. -/
theorem ofKeys_put_of_false {p : Pair} (h : f p.key = false) (ps : Pairs) :
    ofKeys f (put p ps) = ofKeys f ps := by
  rw [put, ofKeys_append, ofKeys_without_of_false h, ofKeys_singleton, h,
    if_neg Bool.false_ne_true, List.append_nil]

/-- No value of a chosen key is cut with those of another key. -/
theorem ofKeys_cut_of_false (h : f key = false) (pattern : String) (ps : Pairs) :
    ofKeys f (cut key pattern ps) = ofKeys f ps := by
  rw [ofKeys_cut, cut, List.map_congr_left fun p hp => if_neg (key_ne_of_mem_ofKeys h hp),
    List.map_id']

/-- A mutation of another key leaves the pairs that are chosen as they are. -/
theorem ofKeys_edit_of_false {m : Mutation} (h : f m.key = false) (ps : Pairs) :
    ofKeys f (edit ps m) = ofKeys f ps := by
  cases m with
  | set key v =>
    rw [edit]
    cases v.toQuery? with
    | none => exact ofKeys_without_of_false h ps
    | some text => exact ofKeys_put_of_false h ps
  | add key text =>
    rw [Mutation.key] at h
    rw [edit, ofKeys_append, ofKeys_singleton, h, if_neg Bool.false_ne_true, List.append_nil]
  | remove key text =>
    rw [edit, ofKeys_withoutPair, withoutPair, List.erase_of_not_mem]
    exact fun hp => key_ne_of_mem_ofKeys h hp rfl
  | replace key pattern => exact ofKeys_cut_of_false h pattern ps
  | inc key amount | dec key amount => exact ofKeys_put_of_false h ps

/-- Of mutations in turn, those of the chosen keys make the pairs that are chosen. -/
theorem ofKeys_editAll (f : String → Bool) (ps : Pairs) (ms : List Mutation) :
    ofKeys f (editAll ps ms) = editAll (ofKeys f ps) (ms.filter fun m => f m.key) := by
  induction ms generalizing ps with
  | nil => rfl
  | cons m ms ih =>
    refine (ih (edit ps m)).trans ?_
    rw [List.filter_cons]
    cases hm : f m.key with
    | true =>
      rw [ofKeys_edit hm, if_pos rfl]
      rfl
    | false => rw [ofKeys_edit_of_false hm, if_neg Bool.false_ne_true]

end Pairs

/-- The values of a key are those of the mutations of this key. -/
theorem WellFormedUrl.valuesOf_editAll (u : WellFormedUrl) (key : String) (ms : List Mutation) :
    Pairs.valuesOf key (u.editAll ms).query.toList =
      Pairs.valuesOf key (Pairs.editAll (Pairs.ofKeys (fun k => k = key) u.query.toList)
        (ms.filter fun m => m.key = key)) := by
  rw [toList_editAll, ← Pairs.ofKeys_editAll, Pairs.valuesOf_ofKeys (decide_eq_true rfl)]

namespace Url

variable {s : String} {u : Url}

/-- What is seen of a key after mutations in turn depends on those of this key alone, and the
    pairs whose keys are not mutated stay as they are. -/
theorem Reachable.get?_getAll_editAll (h : Reachable s u) :
    (∀ (key : String) (ms ms' : List Mutation),
      (ms.filter fun m => m.key = key) = (ms'.filter fun m => m.key = key) →
        (u.editAll ms).get? key = (u.editAll ms').get? key ∧
          (u.editAll ms).getAll key = (u.editAll ms').getAll key) ∧
      ∀ ms : List Mutation,
        ((u.editAll ms).query.toList.filter fun p => p.key ∉ ms.map Mutation.key) =
          u.query.toList.filter fun p => p.key ∉ ms.map Mutation.key := by
  lift u to WellFormedUrl using h.wellFormed
  refine ⟨fun key ms ms' hm => ?_, fun ms => ?_⟩
  · have hv : Pairs.valuesOf key (u.editAll ms).query.toList =
        Pairs.valuesOf key (u.editAll ms').query.toList := by
      rw [u.valuesOf_editAll, u.valuesOf_editAll, hm]
    have hget := (u.editAll ms).get?_eq key
    have hall := (u.editAll ms).getAll_eq key
    rw [hv] at hget hall
    exact ⟨hget.trans ((u.editAll ms').get?_eq key).symm,
      hall.trans ((u.editAll ms').getAll_eq key).symm⟩
  · -- None of the mutations is one of the chosen keys.
    have hn : (ms.filter fun m => m.key ∉ ms.map Mutation.key) = [] :=
      List.filter_eq_nil_iff.2 fun m hm => by simpa using ⟨m, hm, rfl⟩
    change Pairs.ofKeys (fun key => key ∉ ms.map Mutation.key) (u.editAll ms).query.toList = _
    rw [u.toList_editAll, Pairs.ofKeys_editAll, hn]
    rfl

/-- What is done to `b` and `c` is not seen in the values of `a`. -/
theorem get?_getAll_editAll_inc :
    ∃ u, Reachable "/?a=1&b=2&a=5" u ∧
      (u.editAll [.inc "a" 2, .add "a" "x"]).getAll "a" = ["7", "x"] ∧
      (u.editAll [.set "b" .null, .inc "a" 2, .add "c" "a", .add "a" "x"]).getAll "a" =
        ["7", "x"] := by
  obtain ⟨u, hu, ha⟩ : ∃ u, parse "/?a=1&b=2&a=5" = .ok u ∧
      (u.editAll [.inc "a" 2, .add "a" "x"]).getAll "a" = ["7", "x"] := ⟨_, rfl, by decide⟩
  obtain ⟨hkey, -⟩ := Reachable.get?_getAll_editAll (.start hu)
  exact ⟨u, .start hu, ha, (hkey "a" _ _ (by decide)).2.trans ha⟩

end Url

end QueryEdit
