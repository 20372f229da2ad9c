import QueryEdit.Form.Component
import QueryEdit.Pairs

/-!
# Pairs as a form

The text of a query holds its pairs as `key=value`, separated by `&`, with keys
and values written as components (`Pairs.toForm`).

Reading is lenient (`Pairs.ofForm`): empty pieces between separators are skipped,
the first `=` of a piece ends its key, and a piece without `=` is a key with an
empty value. One `?` before the first piece is skipped as well, so a query may be
given with the mark that introduces it.
-/

namespace QueryEdit

/-- The pair of one piece of a form. -/
def Pair.ofPiece (piece : List Char) : Pair :=
  let (key, value) := Text.cutFirst '=' piece
  ⟨String.ofList (Component.decode key), String.ofList (Component.decode (value.getD []))⟩

/-- The piece of a pair. -/
def Pair.toPiece (p : Pair) : List Char :=
  Component.encode p.key.toList ++ '=' :: Component.encode p.value.toList

namespace Pairs

/-- A query without the mark that introduces it. -/
def dropMark : List Char → List Char
  | '?' :: s => s
  | s => s

/-- The pairs of a form. -/
def ofForm (s : List Char) : Pairs :=
  (((dropMark s).splitOn '&').filter fun piece => !piece.isEmpty).map Pair.ofPiece

/-- The form of pairs. -/
def toForm (ps : Pairs) : List Char := ['&'].intercalate (ps.map Pair.toPiece)

end Pairs

end QueryEdit
