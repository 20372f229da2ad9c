import QueryEdit.Query.Form

/-!
# Operations on a query

The edits of a query and the questions about it, as data (`Query.Op`), with their
answers (`Query.Answer`). They run on a query (`Query.run`) and on a plain sequence
of pairs (`Pairs.run`), which says what the answers should be.
-/

namespace QueryEdit

/-- An edit of a query, or a question about it. -/
inductive Query.Op where
  | append (p : Pair)
  | put (p : Pair)
  | erase (key : String)
  | erasePair (p : Pair)
  | cut (key pattern : String)
  | get (key : String)
  | last (key : String)
  | getAll (key : String)
  | contains (key : String)
  | size
  | isEmpty
  | pairs
  | keys
  | form
  /-- Whether the query equals the one of a form. -/
  | equals (form : String)

/-- What an operation answers. -/
inductive Query.Answer where
  | done
  | count (n : Nat)
  | flag (b : Bool)
  | value (v : Option String)
  | text (s : String)
  | texts (ss : List String)
  | pairs (ps : Pairs)

namespace Query

/-- An operation on a query: its answer, and the query after it. -/
def step (q : Query) : Op → Answer × Query
  | .append p => (.done, q.push p)
  | .put p => (.done, q.put p)
  | .erase key => (.count (q.erase key).2, (q.erase key).1)
  | .erasePair p => (.flag (q.erasePair p).2, (q.erasePair p).1)
  | .cut key pattern => (.count (q.cut key pattern).2, (q.cut key pattern).1)
  | .get key => (.value (q.get? key), q)
  | .last key => (.value (q.last? key), q)
  | .getAll key => (.texts (q.getAll key), q)
  | .contains key => (.flag (q.contains key), q)
  | .size => (.count q.size, q)
  | .isEmpty => (.flag q.isEmpty, q)
  | .pairs => (.pairs q.toList, q)
  | .keys => (.texts q.keys, q)
  | .form => (.text (String.ofList q.toForm), q)
  | .equals form => (.flag (q == ofForm form.toList), q)

/-- Operations in turn: their answers, and the query after them. -/
def run (q : Query) : List Op → List Answer × Query
  | [] => ([], q)
  | op :: ops =>
    let (answer, q) := q.step op
    let (answers, q) := q.run ops
    (answer :: answers, q)

@[simp] theorem run_nil (q : Query) : q.run [] = ([], q) := rfl

@[simp] theorem run_cons (q : Query) (op : Op) (ops : List Op) :
    q.run (op :: ops) =
      ((q.step op).1 :: ((q.step op).2.run ops).1, ((q.step op).2.run ops).2) := rfl

end Query

/-- An operation on a plain sequence of pairs: its answer, and the sequence after it. -/
def Pairs.step (ps : Pairs) : Query.Op → Query.Answer × Pairs
  | .append p => (.done, ps ++ [p])
  | .put p => (.done, Pairs.put p ps)
  | .erase key => (.count (ps.countP fun p => p.key == key), Pairs.without key ps)
  | .erasePair p => (.flag (decide (p ∈ ps)), Pairs.withoutPair p ps)
  | .cut key pattern => (.count (Pairs.countCut key pattern ps), Pairs.cut key pattern ps)
  | .get key => (.value (Pairs.valuesOf key ps).head?, ps)
  | .last key => (.value (Pairs.valuesOf key ps).getLast?, ps)
  | .getAll key => (.texts (Pairs.valuesOf key ps), ps)
  | .contains key => (.flag (ps.any fun p => p.key == key), ps)
  | .size => (.count ps.length, ps)
  | .isEmpty => (.flag ps.isEmpty, ps)
  | .pairs => (.pairs ps, ps)
  | .keys => (.texts (ps.map Pair.key), ps)
  | .form => (.text (String.ofList (Pairs.toForm ps)), ps)
  | .equals form => (.flag (decide (ps = Pairs.ofForm form.toList)), ps)

/-- Operations in turn: their answers, and the sequence after them. -/
def Pairs.run (ps : Pairs) : List Query.Op → List Query.Answer × Pairs
  | [] => ([], ps)
  | op :: ops =>
    let (answer, ps) := Pairs.step ps op
    let (answers, ps) := Pairs.run ps ops
    (answer :: answers, ps)

namespace Pairs

@[simp] theorem run_nil (ps : Pairs) : run ps [] = ([], ps) := rfl

@[simp] theorem run_cons (ps : Pairs) (op : Query.Op) (ops : List Query.Op) :
    run ps (op :: ops) =
      ((step ps op).1 :: (run (step ps op).2 ops).1, (run (step ps op).2 ops).2) := rfl

end Pairs

end QueryEdit
