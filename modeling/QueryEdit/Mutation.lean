import QueryEdit.Token.Basic
import QueryEdit.Url.Basic

/-!
# Mutations

A mutation is an edit of one key of a query with its arguments. `Query.edit` says
what each does, and `Url.edit` does it to the query of a URL.

Counting up and down works on the text of the query: the last value of the key,
trimmed, is read as an integer of 64 bits (anything else counts as 0), and the sum
is written in its place. A sum out of range stops at the nearest integer in range.

The parts of a token make a mutation if they fit together (`Mutation.ofParts`): the
key is not empty, a binary operator has an operand and a unary one has none, and
null is an operand of `=` only.
-/

namespace QueryEdit

/-- An edit of one key. -/
inductive Mutation where
  /-- One pair in place of all pairs of the key, or no pair if the value is null. -/
  | set (key : String) (value : Value)
  /-- One more pair at the end. -/
  | add (key text : String)
  /-- The first pair with this key and value removed. -/
  | remove (key text : String)
  /-- The pattern cut out of the values of the key. -/
  | replace (key pattern : String)
  /-- The number in the last value of the key made larger. -/
  | inc (key : String) (amount : Int64)
  /-- The number in the last value of the key made smaller. -/
  | dec (key : String) (amount : Int64)
deriving DecidableEq

namespace Mutation

/-- The key that is edited. -/
def key : Mutation → String
  | set k _ | add k _ | remove k _ | replace k _ | inc k _ | dec k _ => k

/-- The operator that stands for the mutation in a token. -/
def operator : Mutation → Operator
  | set .. => .set
  | add .. => .append
  | remove .. => .remove
  | replace .. => .replace
  | inc .. => .increment
  | dec .. => .decrement

/-- The mutation of a key, an operator and an operand, if they fit together. -/
def ofParts (key : String) (op : Operator) (operand : Option Value) : Except TokenError Mutation :=
  if key.isEmpty then .error .missingKey
  else match op, operand with
    | .increment, none => .ok (inc key 1)
    | .decrement, none => .ok (dec key 1)
    | .increment, some _ | .decrement, some _ => .error (.unexpectedOperand op)
    | _, none => .error (.missingOperand op)
    | .set, some v => .ok (set key v)
    | _, some .null => .error (.nullOperand op)
    | .append, some v => .ok (add key v.toText)
    | .remove, some v => .ok (remove key v.toText)
    | .replace, some v => .ok (replace key v.toText)

/-- The mutation of a token, if its parts fit together. -/
def ofToken (t : Token) : Except TokenError Mutation := ofParts t.key t.operator t.operand

end Mutation

namespace Query

/-- The number in the last value of a key; 0 if there is no value or it is no number. -/
def number (q : Query) (key : String) : Int64 :=
  ((q.last? key).bind fun v => Decimal.readInt64? (Text.trim v.toList)).getD 0

/-- Puts a number in place of all values of a key, stopping at the bounds of 64 bits. -/
def putNumber (q : Query) (key : String) (n : Int) : Query :=
  q.put ⟨key, (Value.int (Int64.ofIntClamp n)).toText⟩

/-- The query after a mutation. -/
def edit (q : Query) : Mutation → Query
  | .set key v =>
    match v.toQuery? with
    | some text => q.put ⟨key, text⟩
    | none => (q.erase key).1
  | .add key text => q.push ⟨key, text⟩
  | .remove key text => (q.erasePair ⟨key, text⟩).1
  | .replace key pattern => (q.cut key pattern).1
  | .inc key amount => q.putNumber key ((q.number key).toInt + amount.toInt)
  | .dec key amount => q.putNumber key ((q.number key).toInt - amount.toInt)

end Query

namespace Url

/-- The URL after a mutation of its query. -/
def edit (u : Url) (m : Mutation) : Url := { u with query := u.query.edit m }

/-- The URL after mutations in turn. -/
def editAll (u : Url) (ms : List Mutation) : Url := ms.foldl edit u

/-- The URL after the mutation of a key, an operator and an operand, if they fit together. -/
def apply (u : Url) (key : String) (op : Operator) (operand : Option Value) :
    Except TokenError Url :=
  (Mutation.ofParts key op operand).map u.edit

end Url

end QueryEdit
