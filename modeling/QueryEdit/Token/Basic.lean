import QueryEdit.Operator
import QueryEdit.Value.Basic

/-!
# Tokens

A token is one edit as a user writes it: a key, an operator, and an operand where
the operator takes one. Tokens can be built freely; the well-formed ones, which a
text can stand for, are those of `Token.parse` (`QueryEdit.Token.Text`).

`TokenError` lists what can be wrong with a token or with the parts of one.
-/

namespace QueryEdit

/-- A key, an operator and an operand. -/
structure Token where
  key : String
  operator : Operator
  operand : Option Value
deriving DecidableEq

/-- Why a token, or the parts of one, is rejected. -/
inductive TokenError where
  /-- Nothing stands before the operator. -/
  | missingKey
  /-- No operator stands where the key ends. -/
  | unknownOperator (rest : String)
  /-- A binary operator has no operand. -/
  | missingOperand (operator : Operator)
  /-- A unary operator has an operand. -/
  | unexpectedOperand (operator : Operator)
  /-- The operand is no literal. -/
  | invalidLiteral (literal : String)
  /-- Null is the operand of an operator other than `=`. -/
  | nullOperand (operator : Operator)
deriving DecidableEq

/-- The message of a rejected token. -/
def TokenError.message : TokenError → String
  | missingKey => "Missing key before operator"
  | unknownOperator rest => "Unknown operator in `" ++ rest ++ "`"
  | missingOperand op => "Operator `" ++ op.symbol ++ "` requires a value"
  | unexpectedOperand op => "Operator `" ++ op.symbol ++ "` does not take a value"
  | invalidLiteral literal => "Invalid value literal `" ++ literal ++ "`"
  | nullOperand op => "Operator `" ++ op.symbol ++ "` does not accept null"

end QueryEdit
