import QueryEdit.Traced

/-!
# Sessions

A session holds a URL under edit and the URLs that were saved from it, which it
can go back to and compare with. It runs commands in turn (`Session.run`), each
with a reply. A command that fails leaves the session as it is.
-/

namespace QueryEdit

/-- A URL under edit. -/
structure Session where
  url : Url
  /-- The URLs that were saved, the first one first. -/
  saved : List Url := []

namespace Session

/-- What a session can be told to do. -/
inductive Command where
  | edit (m : Mutation)
  | apply (key : String) (op : Operator) (operand : Option Value)
  /-- Read a token and apply it. -/
  | token (text : String)
  /-- Look up the values of a key. -/
  | look (key : String)
  | state
  /-- Keep a copy of the URL. -/
  | save
  /-- Go back to a copy. -/
  | restore (i : Nat)
  | equalsSaved (i : Nat)
  /-- Compare with the URL of a text. -/
  | equals (text : String)

/-- What a session replies. -/
inductive Reply where
  /-- The URL after an edit. -/
  | edited (u : Url)
  | values (first : Option String) (all : List String)
  | state (u : Url)
  | equal (b : Bool)
  | badToken (error : TokenError)
  | badUrl (error : UrlError)

/-- Goes on with an edited URL, or replies why there is none. -/
def afterEdit (s : Session) (r : Except TokenError Url) : Reply × Session :=
  match r with
  | .ok u => (.edited u, { s with url := u })
  | .error e => (.badToken e, s)

/-- A command: its reply, and the session after it. -/
def step (s : Session) : Command → Traced (Reply × Session)
  | .edit m => return s.afterEdit (.ok (← s.url.perform m))
  | .apply key op operand => return s.afterEdit (← (s.url.performParts key op operand).run)
  | .token text => return s.afterEdit (← (Token.read text >>= s.url.performToken).run)
  | .look key => return (.values (s.url.get? key) (s.url.getAll key), s)
  | .state => return (.state s.url, s)
  | .save => return (.edited s.url, { s with saved := s.saved ++ [s.url] })
  | .restore i =>
    let u := (s.saved[i]?).getD s.url
    return (.edited u, { s with url := u })
  | .equalsSaved i => return (.equal ((s.saved[i]?).any (s.url == ·)), s)
  | .equals text => do
    match ← (Url.read text).run with
    | .ok u => return (.equal (s.url == u), s)
    | .error e => return (.badUrl e, s)

/-- Commands in turn: their replies, and the session after them. -/
def run (s : Session) : List Command → Traced (List Reply × Session)
  | [] => return ([], s)
  | c :: cs => do
    let (reply, s) ← s.step c
    let (replies, s) ← s.run cs
    return (reply :: replies, s)

end Session

end QueryEdit
