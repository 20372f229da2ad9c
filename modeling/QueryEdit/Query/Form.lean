import QueryEdit.Form.Pairs
import QueryEdit.Query.Basic

/-!
# Queries as forms

The query of a form and the form of a query, by way of its pairs.
-/

namespace QueryEdit.Query

/-- The query of a form, which may begin with a `?`. -/
def ofForm (s : List Char) : Query := ofList (Pairs.ofForm s)

/-- The form of a query, without a `?`. -/
def toForm (q : Query) : List Char := Pairs.toForm q.toList

end QueryEdit.Query
