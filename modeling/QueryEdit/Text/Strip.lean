/-!
# Stripping both ends

`strip p s` drops the characters of a class `p` from both ends of `s` and keeps
everything between the first and the last character outside `p`. That this is what it
does is said in `QueryEdit.Text.Strip.Lemmas`.
-/

namespace QueryEdit.Text

/-- The text without the characters of `p` at its ends. -/
def strip (p : Char → Bool) (s : List Char) : List Char :=
  ((s.dropWhile p).reverse.dropWhile p).reverse

end QueryEdit.Text
