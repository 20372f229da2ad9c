/-!
# Operators

The six edits of a query, each with the symbol that stands for it in a token.
Increment and decrement are *unary*: they take no operand. The other four are
*binary*.

Symbols overlap (`+=` and `++` begin alike, and `=` ends three of them), so a
symbol is read at a fixed place: where the key ends (`Operator.strip?`). No symbol
begins another, so at most one can be read there (`strip?_append`).
-/

namespace QueryEdit

/-- The edits of a query. -/
inductive Operator where
  /-- `=`: one pair in place of all pairs of the key, or none. -/
  | set
  /-- `+=`: one more pair. -/
  | append
  /-- `-=`: one pair less. -/
  | remove
  /-- `~=`: the values of the key with a text cut out. -/
  | replace
  /-- `++`: the key counted up. -/
  | increment
  /-- `--`: the key counted down. -/
  | decrement
deriving DecidableEq, Repr

namespace Operator

/-- All operators, in the order in which their symbols are tried. -/
def all : List Operator := [increment, decrement, append, remove, replace, set]

/-- The symbol of an operator in a token. -/
def symbol : Operator → String
  | set => "="
  | append => "+="
  | remove => "-="
  | replace => "~="
  | increment => "++"
  | decrement => "--"

/-- Unary operators take no operand. -/
def isUnary : Operator → Bool
  | increment | decrement => true
  | _ => false

/-- The operator with the given symbol. -/
def ofSymbol? (s : String) : Option Operator := all.find? fun op => op.symbol == s

/-- The operator whose symbol a text begins with, and the rest of the text. -/
def strip? (s : List Char) : Option (Operator × List Char) :=
  all.findSome? fun op => (op.symbol.toList.isPrefixOf? s).map fun rest => (op, rest)

/-- A symbol is read back, whatever text follows it. -/
theorem strip?_append (op : Operator) (s : List Char) :
    strip? (op.symbol.toList ++ s) = some (op, s) := by
  cases op <;> rfl

end Operator

/-- The characters that symbols begin with. They end the key of a token. -/
def isOperatorChar (c : Char) : Bool := c == '=' || c == '+' || c == '-' || c == '~'

end QueryEdit
