import QueryEdit.Text.Utf8

/-!
# Form components

A key or a value in the text of a query. ASCII letters, digits and `-`, `_`, `.`,
`~` stand for themselves, `+` for a space, and every other character for its UTF-8
bytes, each written `%XX` in upper case (`encode`).

Reading is lenient (`decode`): any character stands for itself except `+` and an
escape `%XX` with digits of either case. An escape without two digits is no escape
and stays as it is, and bytes that are not UTF-8 become U+FFFD.
-/

namespace QueryEdit.Component

/-! ### Hexadecimal digits -/

/-- The upper-case hexadecimal digit of a number below sixteen. -/
def hexDigit (n : Nat) : Char := if n < 10 then Char.ofNat (48 + n) else Char.ofNat (55 + n)

/-- The number that a hexadecimal digit of either case stands for. -/
def hexValue? (c : Char) : Option Nat :=
  if '0' ≤ c ∧ c ≤ '9' then some (c.toNat - 48)
  else if 'A' ≤ c ∧ c ≤ 'F' then some (c.toNat - 55)
  else if 'a' ≤ c ∧ c ≤ 'f' then some (c.toNat - 87)
  else none

/-- The byte that two hexadecimal digits stand for. -/
def hexByte? (c d : Char) : Option UInt8 := do
  let m ← hexValue? c
  let n ← hexValue? d
  return UInt8.ofNat (m * 16 + n)

/-! ### Writing -/

/-- The characters that stand for themselves. -/
def isPlain (c : Char) : Bool :=
  c.isAlphanum || c == '-' || c == '_' || c == '.' || c == '~'

/-- The escape of a byte. -/
def escape (b : UInt8) : List Char := ['%', hexDigit (b.toNat / 16), hexDigit (b.toNat % 16)]

/-- What is written for a character. -/
def encodeChar (c : Char) : List Char :=
  if isPlain c then [c]
  else if c = ' ' then ['+']
  else (String.utf8EncodeChar c).flatMap escape

/-- The component of a text. -/
def encode (s : List Char) : List Char := s.flatMap encodeChar

/-! ### Reading -/

/-- The bytes that a component stands for. -/
def bytes : List Char → List UInt8
  | '%' :: c :: d :: s =>
    match hexByte? c d with
    | some b => b :: bytes s
    | none => String.utf8EncodeChar '%' ++ bytes (c :: d :: s)
  | '+' :: s => String.utf8EncodeChar ' ' ++ bytes s
  | c :: s => String.utf8EncodeChar c ++ bytes s
  | [] => []

/-- The text of a component. -/
def decode (s : List Char) : List Char := Utf8.decode (bytes s)

end QueryEdit.Component
