import QueryEdit.Value.Basic

/-!
# Literals

How a value is written in a token:

* null is `None` or `null`;
* an integer is written in base ten, with an optional sign;
* a text stands between two double or two single quotes. A backslash before a
  quote of either kind or before a backslash is dropped, and the character after
  it is taken as it is; any other backslash stands for itself. The literal ends at
  the first closing quote that is not taken that way (`Literal.unquote?`).

A text is written between double quotes, with a backslash before every double
quote and every backslash (`Literal.quote`). Every value is read back from its
literal (`Value.ofLiteral?_toLiteral`).
-/

namespace QueryEdit

namespace Literal

/-- The words for null; the first is the one that is written. -/
def nullWords : List String := ["None", "null"]

/-- The characters that a backslash can stand before. -/
def isEscapable (c : Char) : Bool := c == '"' || c == '\'' || c == '\\'

/-- The text after an opening quote `q`, up to its closing quote, which must be the last
    character. -/
def unquote? (q : Char) : List Char → Option (List Char)
  | [] => none
  | '\\' :: c :: s =>
    if isEscapable c then (unquote? q s).map (c :: ·) else (unquote? q (c :: s)).map ('\\' :: ·)
  | c :: s =>
    if c = q then (if s = [] then some [] else none) else (unquote? q s).map (c :: ·)

/-- What is written for a character between double quotes. -/
def escape (c : Char) : List Char := if c = '"' ∨ c = '\\' then ['\\', c] else [c]

/-- A text between double quotes. -/
def quote (s : List Char) : List Char := '"' :: s.flatMap escape ++ ['"']

/-- A text is read back from what is written after the opening quote. -/
theorem unquote?_escape (s : List Char) : unquote? '"' (s.flatMap escape ++ ['"']) = some s := by
  induction s with
  | nil => rfl
  | cons c s ih =>
    rw [List.flatMap_cons, escape]
    split
    · rename_i h
      rcases h with rfl | rfl <;> simp [unquote?, isEscapable, ih]
    · rename_i h
      rw [not_or] at h
      rw [List.cons_append, List.nil_append, List.cons_append, unquote?.eq_def]
      split <;> simp_all

end Literal

namespace Value

/-- The value that a literal stands for. -/
def ofLiteral? (literal : List Char) : Option Value :=
  if literal ∈ Literal.nullWords.map String.toList then some null
  else match literal with
    | '"' :: body => (Literal.unquote? '"' body).map fun s => text (String.ofList s)
    | '\'' :: body => (Literal.unquote? '\'' body).map fun s => text (String.ofList s)
    | _ => (Decimal.readInt64? literal).map int

/-- The literal that is written for a value. -/
def toLiteral : Value → List Char
  | text s => Literal.quote s.toList
  | int n => Decimal.write n.toInt
  | null => "None".toList

/-- A literal is an integer if its first character begins no other literal. -/
theorem ofLiteral?_cons {c : Char} (s : List Char) (h : c ∉ ['N', 'n', '"', '\'']) :
    ofLiteral? (c :: s) = (Decimal.readInt64? (c :: s)).map int := by
  simp only [List.mem_cons, List.not_mem_nil, or_false, not_or] at h
  simp [ofLiteral?, Literal.nullWords, h]

/-- A value is read back from its literal. -/
theorem ofLiteral?_toLiteral (v : Value) : ofLiteral? v.toLiteral = some v := by
  cases v with
  | text s =>
    have h := Literal.unquote?_escape s.toList
    simp [toLiteral, Literal.quote, ofLiteral?, Literal.nullWords, h]
  | int n =>
    obtain ⟨c, s, hs, hc⟩ := Decimal.exists_write_eq_cons n.toInt
    have hc' : c ∉ ['N', 'n', '"', '\''] := by
      rcases hc with rfl | hc
      · decide
      · intro h
        simp only [List.mem_cons, List.not_mem_nil, or_false] at h
        rcases h with rfl | rfl | rfl | rfl <;> simp at hc
    rw [toLiteral, hs, ofLiteral?_cons s hc', ← hs, Decimal.readInt64?_write, Option.map_some]
  | null => decide

end Value

end QueryEdit
