import QueryEdit.Text.Blank
import QueryEdit.Text.Cut

/-!
# Pairs

A query is an ordered sequence of pairs of a key and a value; keys may occur more
than once. This module says what each edit does to the plain sequence:

* `Pairs.without key`: every pair of the key is dropped;
* `Pairs.put p`: every pair of `p`'s key is dropped, and `p` added at the end;
* `Pairs.withoutPair p`: the first pair equal to `p` is dropped;
* `Pairs.cut key pattern`: in every value of the key, the first occurrence of the
  pattern is cut out. Only the values in which it occurs change, and they lose
  their outer blanks as well.
-/

namespace QueryEdit

/-- A key and its value, both decoded. -/
structure Pair where
  key : String
  value : String
deriving DecidableEq

/-- The value with the first occurrence of a pattern cut out and then trimmed, if the
    pattern occurs in it. No value holds the empty pattern. -/
def cutValue? (pattern value : String) : Option String :=
  if pattern.isEmpty then none
  else (Text.excise? pattern.toList value.toList).map fun s => String.ofList (Text.trim s)

/-- The pair with the first occurrence of a pattern cut out of its value. -/
def Pair.cut (pattern : String) (p : Pair) : Pair :=
  { p with value := (cutValue? pattern p.value).getD p.value }

/-- Pairs in the order of the query. -/
abbrev Pairs := List Pair

namespace Pairs

/-- The pairs of other keys. -/
def without (key : String) (ps : Pairs) : Pairs := ps.filter fun p => p.key != key

/-- One pair at the end in place of all pairs of its key. -/
def put (p : Pair) (ps : Pairs) : Pairs := without p.key ps ++ [p]

/-- The pairs without the first one equal to `p`. -/
def withoutPair (p : Pair) (ps : Pairs) : Pairs := ps.erase p

/-- The pairs with the pattern cut out of the values of the key. -/
def cut (key pattern : String) (ps : Pairs) : Pairs :=
  ps.map fun p => if p.key = key then p.cut pattern else p

/-- The values of a key. -/
def valuesOf (key : String) (ps : Pairs) : List String :=
  (ps.filter fun p => p.key == key).map Pair.value

/-- The number of values of the key that hold the pattern. -/
def countCut (key pattern : String) (ps : Pairs) : Nat :=
  (valuesOf key ps).countP fun v => (cutValue? pattern v).isSome

end Pairs

end QueryEdit
