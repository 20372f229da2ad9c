/-!
# UTF-8

Texts as bytes (`encode`), and bytes as texts (`decode`). Every sequence of bytes
is read: what is not UTF-8 becomes U+FFFD, one for each maximal part that begins
a character but cannot be completed, and one for each byte that begins none.

The reader is a machine with at most one character begun (`Pending`). A byte
either completes or continues it, or shows that it is broken, and then begins a
character of its own (`step`).
-/

namespace QueryEdit.Utf8

/-- The bytes of a text. -/
def encode (s : List Char) : List UInt8 := s.flatMap String.utf8EncodeChar

/-- A row of the table of well-formed sequences: lead bytes, the number of bytes
    that follow one, and the bounds of the first of these. -/
structure Lead where
  first : Nat
  last : Nat
  follow : Nat
  low : Nat
  high : Nat

/-- The leads of well-formed sequences of two to four bytes. -/
def leads : List Lead :=
  [⟨0xC2, 0xDF, 1, 0x80, 0xBF⟩,
    ⟨0xE0, 0xE0, 2, 0xA0, 0xBF⟩,
    ⟨0xE1, 0xEC, 2, 0x80, 0xBF⟩,
    ⟨0xED, 0xED, 2, 0x80, 0x9F⟩,
    ⟨0xEE, 0xEF, 2, 0x80, 0xBF⟩,
    ⟨0xF0, 0xF0, 3, 0x90, 0xBF⟩,
    ⟨0xF1, 0xF3, 3, 0x80, 0xBF⟩,
    ⟨0xF4, 0xF4, 3, 0x80, 0x8F⟩]

/-- A character begun: its bits so far, the number of bytes still to come, and
    the bounds of the next one. -/
structure Pending where
  bits : Nat
  follow : Nat
  low : Nat
  high : Nat

/-- What stands for bytes that are not UTF-8. -/
def replacement : Char := '\uFFFD'

/-- A byte between characters: a character of its own, the begin of a longer one,
    or no UTF-8 at all. -/
def start (b : Nat) : List Char × Option Pending :=
  if b < 0x80 then ([Char.ofNat b], none)
  else match leads.find? fun l => l.first ≤ b && b ≤ l.last with
    | some l => ([], some ⟨b % (64 >>> l.follow), l.follow, l.low, l.high⟩)
    | none => ([replacement], none)

/-- One byte: the characters that it settles, and the character then begun. -/
def step : Option Pending → Nat → List Char × Option Pending
  | none, b => start b
  | some p, b =>
    if p.low ≤ b ∧ b ≤ p.high then
      let bits := p.bits * 64 + b % 64
      if p.follow ≤ 1 then ([Char.ofNat bits], none)
      else ([], some ⟨bits, p.follow - 1, 0x80, 0xBF⟩)
    else (replacement :: (start b).1, (start b).2)

/-- The text of the bytes after a character begun. -/
def decodeFrom : Option Pending → List UInt8 → List Char
  | none, [] => []
  | some _, [] => [replacement]
  | p, b :: bs => (step p b.toNat).1 ++ decodeFrom (step p b.toNat).2 bs

/-- The text of bytes, with U+FFFD for what is not UTF-8. -/
def decode (bs : List UInt8) : List Char := decodeFrom none bs

end QueryEdit.Utf8
