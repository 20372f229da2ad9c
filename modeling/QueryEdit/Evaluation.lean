import QueryEdit.Traced

/-!
# Evaluation

Editing a URL with a list of tokens, from text to text (`evaluate`). All tokens are
read before the URL is, and the URL before the first edit, so a call either does
every edit or does none.
-/

namespace QueryEdit

/-- Why an evaluation fails. -/
inductive EvaluationError where
  | url (error : UrlError)
  | token (error : TokenError)
deriving DecidableEq

namespace EvaluationError

/-- The message of the URL or the token that is at fault. -/
def cause : EvaluationError → String
  | url e => e.message
  | token e => e.message

/-- The message of a failed evaluation. -/
def message : EvaluationError → String
  | url e => "URL parse error: " ++ e.message
  | token e => "Syntax error: " ++ e.message

end EvaluationError

/-- The text of a URL after the edits of the tokens in turn. -/
def evaluate (url : String) (tokens : List String) : ExceptT EvaluationError Traced String := do
  let tokens ← ExceptT.adapt .token (tokens.mapM Token.read)
  let u ← ExceptT.adapt .url (Url.read url)
  let u ← ExceptT.adapt .token (tokens.foldlM Url.performToken u)
  return u.render

end QueryEdit
