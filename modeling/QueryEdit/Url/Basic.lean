import QueryEdit.Query.Form
import QueryEdit.Text.Clean
import QueryEdit.Url.Location

/-!
# URLs

A URL, or a relative reference, is a location with a query and an optional
fragment. The location and the fragment are kept as they were written, while the
query is read into pairs and written anew from them.

`Url.parse` cleans the text, takes the fragment off at the first `#` and the query
at the first `?`, and reads the rest as a location. Queries and fragments are never
rejected. `Url.render` leaves out the `?` of a query without pairs.
-/

namespace QueryEdit

/-- A URL whose query can be edited. -/
structure Url where
  location : Location
  query : Query
  fragment : Option String

namespace Url

instance : BEq Url :=
  ⟨fun u v => u.location == v.location && u.query == v.query && u.fragment == v.fragment⟩

/-- The URL that a text stands for. -/
def parse (s : String) : Except UrlError Url :=
  let (body, fragment) := Text.cutFirst '#' (Text.clean s).toList
  let (front, query) := Text.cutFirst '?' body
  (Location.parse front).map fun location =>
    ⟨location, Query.ofForm (query.getD []), fragment.map String.ofList⟩

/-- The text of the query with the `?` that introduces it. -/
def queryChars (q : Query) : List Char := if q.isEmpty then [] else '?' :: q.toForm

/-- The text of the fragment with the `#` that introduces it. -/
def fragmentChars (fragment : Option String) : List Char :=
  fragment.elim [] fun f => '#' :: f.toList

/-- The text of a URL. -/
def render (u : Url) : String :=
  String.ofList (u.location.toChars ++ queryChars u.query ++ fragmentChars u.fragment)

/-! ### Parts -/

/-- The scheme; none in a relative reference. -/
def scheme (u : Url) : Option String := u.location.scheme

/-- The user information before the host. -/
def userinfo (u : Url) : Option String := u.location.authority.bind Authority.userinfo

/-- The host; none in a URL without authority. -/
def host (u : Url) : Option String := u.location.authority.map fun a => a.host.toText

/-- The port, which may be empty. -/
def port (u : Url) : Option String := u.location.authority.bind Authority.port

/-- The path. -/
def path (u : Url) : String := u.location.path

/-- The first value of a key. -/
def get? (u : Url) (key : String) : Option String := u.query.get? key

/-- All values of a key. -/
def getAll (u : Url) (key : String) : List String := u.query.getAll key

end Url

end QueryEdit
