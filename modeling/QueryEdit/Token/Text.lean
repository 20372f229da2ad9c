import QueryEdit.Token.Basic
import QueryEdit.Value.Literal

/-!
# Tokens as texts

A token is written `key operator literal` without separators. The key ends at the
first character that begins a symbol, so it holds no `=`, `+`, `-` and `~`; the
operator's symbol must stand there; and the rest is the literal of the operand,
or nothing if the operator is unary.
-/

namespace QueryEdit

/-- The value of a literal, or the literal as the reason why it has none. -/
def Value.ofLiteral (literal : String) : Except TokenError Value :=
  match Value.ofLiteral? literal.toList with
  | some v => .ok v
  | none => .error (.invalidLiteral literal)

namespace Token

/-- The operand of an operator, from the text after its symbol. -/
def readOperand (op : Operator) (literal : String) : Except TokenError (Option Value) :=
  if op.isUnary then
    if literal.isEmpty then .ok none else .error (.unexpectedOperand op)
  else if literal.isEmpty then .error (.missingOperand op)
  else do
    let v ← Value.ofLiteral literal
    if v.isNull ∧ op ≠ .set then .error (.nullOperand op) else .ok (some v)

/-- The token that a text stands for. -/
def parse (s : String) : Except TokenError Token :=
  let key := s.toList.takeWhile fun c => !isOperatorChar c
  let rest := s.toList.dropWhile fun c => !isOperatorChar c
  if rest.isEmpty then .error (.unknownOperator s)
  else if key.isEmpty then .error .missingKey
  else match Operator.strip? rest with
    | none => .error (.unknownOperator (String.ofList rest))
    | some (op, literal) =>
      (readOperand op (String.ofList literal)).map fun operand => ⟨String.ofList key, op, operand⟩

/-- The text of a token. -/
def render (t : Token) : String :=
  t.key ++ t.operator.symbol ++ String.ofList ((t.operand.map Value.toLiteral).getD [])

end Token

end QueryEdit
