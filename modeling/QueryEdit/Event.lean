import QueryEdit.Mutation

/-!
# Events

What happens while URLs are read and edited, for whoever follows it: each mutation
that is applied, and each token or URL that is rejected. An event has a level and
named fields, all of them texts (`Event.level`, `Event.fields`).

Events are told where something happens, not where it is asked for: a mutation
whose parts do not fit together is never applied, and no event tells of it.
-/

namespace QueryEdit

/-- Something that happened. -/
inductive Event where
  | applied (m : Mutation)
  | rejectedToken (token : String) (error : TokenError)
  | rejectedUrl (input : String) (error : UrlError)
deriving DecidableEq

/-- How closely one has to follow to be told of an event. -/
inductive Level where
  | trace
  | debug
deriving DecidableEq

/-- The name of a level. -/
def Level.name : Level → String
  | trace => "TRACE"
  | debug => "DEBUG"

/-- The argument of a mutation, as a field of its event. -/
def Mutation.argument : Mutation → String × String
  | set _ v => ("value", v.toText)
  | add _ text | remove _ text => ("value", text)
  | replace _ pattern => ("value", pattern)
  | inc _ amount | dec _ amount => ("amount", (Value.int amount).toText)

namespace Event

/-- The level of an event. -/
def level : Event → Level
  | applied _ => .trace
  | rejectedToken .. | rejectedUrl .. => .debug

/-- The fields of an event. -/
def fields : Event → List (String × String)
  | applied m =>
    [("message", "applying query mutation"), ("key", m.key), ("operator", m.operator.symbol),
      m.argument]
  | rejectedToken token e =>
    [("message", "rejected mutation token"), ("token", token), ("error", e.message)]
  | rejectedUrl input e =>
    [("message", "rejected base URL"), ("input", input), ("error", e.message)]

end Event

end QueryEdit
