import QueryEdit.Text.Strip
import QueryEdit.Text.Utf8

/-!
# Clean texts

A URL is often copied with spaces, control characters or line breaks around or
inside it. Cleaning drops the spaces and C0 controls at both ends, and then every
tab and line break that is left. Other controls and spaces inside the text stay.

`cleanChars` says so character by character. `clean` looks at the bytes of the
text: most texts have no byte to drop and are given back as they are, and the
others are cut at the first and the last byte to keep. Both do the same, since the
characters to drop are single bytes that occur in no other character.
-/

namespace QueryEdit.Text

/-- The characters that may not begin or end a clean text: U+0020 and below. -/
def isOuter (c : Char) : Bool := c.toNat ≤ 0x20

/-- Tab, line feed and carriage return, which a clean text has nowhere. -/
def isBreak (c : Char) : Bool := c == '\t' || c == '\n' || c == '\r'

/-- The text without outer controls and spaces, and without tabs and line breaks. -/
def cleanChars (s : List Char) : List Char := (strip isOuter s).filter fun c => !isBreak c

/-! ### Bytes -/

/-- The bytes of outer controls and spaces. -/
def isOuterByte (b : UInt8) : Bool := b.toNat ≤ 0x20

/-- The bytes of tabs and line breaks. -/
def isBreakByte (b : UInt8) : Bool := b == 0x09 || b == 0x0A || b == 0x0D

/-- The offsets at which the bytes without their outer ones begin and end. -/
def innerBounds (bs : List UInt8) : Nat × Nat :=
  ((bs.takeWhile isOuterByte).length, bs.length - (bs.reverse.takeWhile isOuterByte).length)

/-- The text between its outer controls and spaces. -/
def inner (s : String) : String :=
  let (first, last) := innerBounds (Utf8.encode s.toList)
  String.Pos.Raw.extract s ⟨first⟩ ⟨last⟩

/-- The text without tabs and line breaks. -/
def dropBreaks (s : String) : String :=
  if (Utf8.encode s.toList).any isBreakByte then
    String.ofList (s.toList.filter fun c => !isBreak c)
  else s

/-- The clean text of a text. -/
def clean (s : String) : String :=
  if (Utf8.encode s.toList).any isOuterByte then dropBreaks (inner s) else s

end QueryEdit.Text
