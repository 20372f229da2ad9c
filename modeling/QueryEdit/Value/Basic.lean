import QueryEdit.Text.Decimal

/-!
# Values

The operand of an edit: a text, an integer of 64 bits, or null. Null is the
absence of a value: setting a key to null removes the key.

A value has a text for messages and for the edits that take any text
(`Value.toText`), and a text for the query (`Value.toQuery?`). They differ on null,
which is the word `null` in the first and nothing in the second.
-/

namespace QueryEdit

/-- The operand of an edit. -/
inductive Value where
  | text (s : String)
  | int (n : Int64)
  | null
deriving DecidableEq

namespace Value

/-- The absence of a value. -/
def isNull : Value → Bool
  | null => true
  | _ => false

/-- The text of a value. -/
def toText : Value → String
  | text s => s
  | int n => String.ofList (Decimal.write n.toInt)
  | null => "null"

/-- The text that a value has in a query; null has none. -/
def toQuery? : Value → Option String
  | null => none
  | v => some v.toText

end Value

/-- The types whose elements can be operands. -/
class ToValue (α : Type) where
  toValue : α → Value

export ToValue (toValue)

instance : ToValue Value := ⟨id⟩

instance : ToValue String := ⟨.text⟩

instance : ToValue Int64 := ⟨.int⟩

/-- An integer of 32 bits is one of 64 bits. -/
instance : ToValue Int32 := ⟨fun n => .int n.toInt64⟩

/-- A natural number of 32 bits is an integer of 64 bits. -/
instance : ToValue UInt32 := ⟨fun n => .int (Int64.ofNat n.toNat)⟩

/-- A missing element is null. -/
instance {α : Type} [ToValue α] : ToValue (Option α) := ⟨fun x => (x.map toValue).getD .null⟩

end QueryEdit
