import QueryEdit.Proofs.Evaluation
import QueryEdit.Proofs.Session

/-!
# What is told

Whoever follows an evaluation is told what came of it, and nothing else (`Tells`): the
first text that is no token, or the URL if it is rejected, or each token that is
applied, in order. Whoever follows a session is told of the mutations that are applied
in it.

`events_evaluate_eq_iff` says both. What is told is said by levels and fields
(`Event.record`).
-/

namespace QueryEdit

/-- A level and named fields. -/
abbrev Record := Level × List (String × String)

/-- What an event tells. -/
def Event.record (e : Event) : Record := (e.level, e.fields)

/-- What is told of a token that is applied. Counting goes by one. -/
def Token.record (t : Token) : Record :=
  (.trace, [("message", "applying query mutation"), ("key", t.key),
    ("operator", t.operator.symbol), t.operand.elim ("amount", "1") fun v => ("value", v.toText)])

/-- What is told of a mutation is what is told of the token that stands for it. -/
theorem Token.StandsFor.record_applied {t : Token} {m : Mutation} (h : t.StandsFor m) :
    (Event.applied m).record = t.record := by
  cases h <;> rfl

/-- The mutations of tokens are told of as the tokens are. -/
theorem records_applied {ts : List Token} {ms : List Mutation}
    (h : List.Forall₂ Token.StandsFor ts ms) :
    (ms.map Event.applied).map Event.record = ts.map Token.record := by
  induction h with
  | nil => rfl
  | cons ht _ ih => rw [List.map_cons, List.map_cons, List.map_cons, ih, ht.record_applied]

/-- What an evaluation tells. -/
inductive Tells (url : String) (tokens : List String) : List Record → Prop
  | badToken {s : String} {e : TokenError} : Token.FirstRejected tokens s e →
      Tells url tokens
        [(.debug, [("message", "rejected mutation token"), ("token", s), ("error", e.message)])]
  | badUrl {ts : List Token} {e : UrlError} : Token.Spelled tokens ts → Url.parse url = .error e →
      Tells url tokens
        [(.debug, [("message", "rejected base URL"), ("input", url), ("error", e.message)])]
  | edited {ts : List Token} {u : Url} : Token.Spelled tokens ts → Url.parse url = .ok u →
      Tells url tokens (ts.map Token.record)

variable {url : String} {tokens : List String} {rs : List Record}

/-- An evaluation tells of what `Tells` says. -/
theorem Tells.records_eq (h : Tells url tokens rs) :
    (evaluate url tokens).run.events.map Event.record = rs := by
  cases h with
  | badToken h =>
    rw [run_evaluate_of_firstRejected h]
    rfl
  | badUrl h he =>
    rw [run_evaluate_of_parse_error h he]
    rfl
  | edited h hu =>
    obtain ⟨ms, hms⟩ := h.exists_standsFor
    rw [run_evaluate_of_parse h hu hms]
    exact records_applied hms

/-- `Tells` says of every evaluation what it tells. -/
theorem exists_tells (url : String) (tokens : List String) : ∃ rs, Tells url tokens rs := by
  obtain ⟨r, h⟩ := exists_evaluates url tokens
  cases h with
  | badToken h => exact ⟨_, .badToken h⟩
  | badUrl h he => exact ⟨_, .badUrl h he⟩
  | edited h hu _ => exact ⟨_, .edited h hu⟩

/-- An evaluation tells what `Tells` says. A session, whatever commands run in it, tells of the
    mutations that are applied, each once and in order, and of no others. -/
theorem events_evaluate_eq_iff (url : String) (tokens : List String) :
    (∀ rs, (evaluate url tokens).run.events.map Event.record = rs ↔ Tells url tokens rs) ∧
      ∀ (s : Session) (cs : List Session.Command), ∃ ms,
        Session.History s cs (s.run cs).result.1 ms (s.run cs).result.2 ∧
          traces (s.run cs).events = ms.map .applied := by
  refine ⟨fun rs => ⟨?_, Tells.records_eq⟩, Session.exists_history⟩
  rintro rfl
  obtain ⟨rs, h⟩ := exists_tells url tokens
  rw [h.records_eq]
  exact h

end QueryEdit
