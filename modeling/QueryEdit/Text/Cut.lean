/-!
# Cutting a text

* `cutFirst d s`: what stands before the first delimiter `d`, and what stands
  after it if there is one;
* `cutLast d s`: what stands before the last delimiter `d` if there is one, and
  what stands after it;
* `excise? t s`: the text `s` without the first occurrence of `t`.

How the parts make up the text is said in `QueryEdit.Text.Cut.Lemmas`.
-/

namespace QueryEdit.Text

/-- The text before the first `d`, and the text after it if `d` occurs. -/
def cutFirst (d : Char) (s : List Char) : List Char × Option (List Char) :=
  (s.takeWhile (· != d), (s.dropWhile (· != d)).tail?)

/-- The text before the last `d` if `d` occurs, and the text after it. -/
def cutLast (d : Char) (s : List Char) : Option (List Char) × List Char :=
  ((cutFirst d s.reverse).2.map List.reverse, (cutFirst d s.reverse).1.reverse)

/-- The text without the first occurrence of `t`; nothing if `t` does not occur. -/
def excise? (t : List Char) : List Char → Option (List Char)
  | [] => t.isPrefixOf? []
  | c :: s => (t.isPrefixOf? (c :: s)).or ((excise? t s).map (c :: ·))

end QueryEdit.Text
