import QueryEdit.Url.Host

/-!
# Locations

The part of a URL before its query: an optional scheme, an optional authority and
a path. Each part is kept as it was written, so a location is written back as it
was read (`Location.toChars`).

`Location.parse` splits a text without `?` and `#`. It refuses a text for its
scheme first, then for its host, then for its port. The path is never refused.
-/

namespace QueryEdit

/-- Why a URL is rejected. -/
inductive UrlError where
  | invalidScheme
  | invalidHost
  | invalidPort
deriving DecidableEq

/-- The message of a rejected URL. -/
def UrlError.message : UrlError → String
  | invalidScheme => "Invalid scheme"
  | invalidHost => "Invalid host"
  | invalidPort => "Invalid port"

/-- What stands between `//` and the path. -/
structure Authority where
  /-- The text before the last `@`. -/
  userinfo : Option String
  host : Host
  /-- The text after the `:` that ends the host, which may be empty. -/
  port : Option String
deriving DecidableEq

/-- A URL up to its query. -/
structure Location where
  scheme : Option String
  authority : Option Authority
  path : String
deriving DecidableEq

/-! ### Writing -/

/-- The text of an authority, with the `//` that introduces it. -/
def Authority.toChars (a : Authority) : List Char :=
  "//".toList ++ (a.userinfo.elim [] fun u => u.toList ++ ['@']) ++ a.host.toText.toList ++
    (a.port.elim [] fun p => ':' :: p.toList)

/-- The text of a location. -/
def Location.toChars (l : Location) : List Char :=
  (l.scheme.elim [] fun s => s.toList ++ [':']) ++ (l.authority.elim [] Authority.toChars) ++
    l.path.toList

/-! ### Schemes -/

/-- The characters of a scheme after the first. -/
def isSchemeChar (c : Char) : Bool := c.isAlphanum || c == '+' || c == '-' || c == '.'

/-- A scheme is a letter and then letters, digits, `+`, `-` and `.`. -/
def isScheme : List Char → Bool
  | [] => false
  | c :: s => c.isAlpha && s.all isSchemeChar

/-- The schemes whose URLs need a host. -/
def hostSchemes : List String := ["http", "https", "ws", "wss", "ftp"]

/-- Whether a URL of the scheme needs a host. Upper and lower case are not told apart. -/
def needsHost (scheme : List Char) : Bool :=
  hostSchemes.contains (String.ofList (scheme.map Char.toLower))

/-- The text before the first `:` if no `/` comes before it, and the rest of the text. -/
def cutScheme (s : List Char) : Option (List Char) × List Char :=
  match Text.cutFirst ':' s with
  | (scheme, some rest) => if scheme.contains '/' then (none, s) else (some scheme, rest)
  | (_, none) => (none, s)

/-! ### Reading -/

/-- The authority of a text between `//` and the path. -/
def Authority.parse (hostNeeded : Bool) (s : List Char) : Except UrlError Authority :=
  let (userinfo, rest) := Text.cutLast '@' s
  match Host.split? rest with
  | none => .error .invalidHost
  | some (host, port) =>
    if hostNeeded && host == .name "" then .error .invalidHost
    else if port.all isPort then
      .ok ⟨userinfo.map String.ofList, host, port.map String.ofList⟩
    else .error .invalidPort

/-- The location of a text without `?` and `#`. -/
def Location.parse (s : List Char) : Except UrlError Location :=
  let (scheme, rest) := cutScheme s
  if !scheme.all isScheme then .error .invalidScheme
  else match rest with
    | '/' :: '/' :: after =>
      (Authority.parse (scheme.any needsHost) (after.takeWhile (· != '/'))).map fun authority =>
        ⟨scheme.map String.ofList, some authority, String.ofList (after.dropWhile (· != '/'))⟩
    | _ =>
      if scheme.any needsHost then .error .invalidHost
      else .ok ⟨scheme.map String.ofList, none, String.ofList rest⟩

end QueryEdit
