import QueryEdit.Text.Cut

/-!
# Hosts and ports

The host of an authority is a name or a bracketed address:

* a name holds ASCII letters and digits, `-._~`, the delimiters ``!$&'()*+,;=``,
  `%` and any character outside ASCII. It may be empty;
* an address holds hexadecimal digits, `:` and `.`, with at least one `:`.

A port follows a `:`. It is empty or a number up to 65535 in decimal digits.
`Host.split?` reads a host with its port; nothing is decoded or normalized.
-/

namespace QueryEdit

/-- The host of an authority. -/
inductive Host where
  | name (s : String)
  /-- The text between the brackets. -/
  | address (s : String)
deriving DecidableEq

namespace Host

/-- The text of a host. -/
def toText : Host → String
  | name s => s
  | address s => "[" ++ s ++ "]"

/-- The characters of a name. -/
def isNameChar (c : Char) : Bool :=
  c.isAlphanum || "-._~".toList.contains c || "!$&'()*+,;=".toList.contains c || c == '%' ||
    0x80 ≤ c.toNat

/-- The characters of an address. -/
def isAddressChar (c : Char) : Bool :=
  c.isDigit || ('a' ≤ c && c ≤ 'f') || ('A' ≤ c && c ≤ 'F') || c == ':' || c == '.'

/-- Whether a text can stand between the brackets of an address. -/
def isAddress (s : List Char) : Bool := s.contains ':' && s.all isAddressChar

/-- The port after an address: what follows a `:`, or no port. -/
def portAfter? : List Char → Option (Option (List Char))
  | [] => some none
  | ':' :: port => some (some port)
  | _ => none

/-- The host of a text and its port. An address ends at the first `]`, and a name at the
    last `:`, if there is one. -/
def split? : List Char → Option (Host × Option (List Char))
  | '[' :: s =>
    match Text.cutFirst ']' s with
    | (inner, some rest) =>
      if isAddress inner then
        (portAfter? rest).map fun port => (address (String.ofList inner), port)
      else none
    | (_, none) => none
  | s =>
    let (host, port) := match Text.cutLast ':' s with
      | (some host, port) => (host, some port)
      | (none, host) => (host, none)
    if host.all isNameChar then some (name (String.ofList host), port) else none

end Host

/-- Whether a text can be a port. -/
def isPort (s : List Char) : Bool := s.all Char.isDigit && Nat.ofDigitChars 10 s 0 ≤ 65535

end QueryEdit
