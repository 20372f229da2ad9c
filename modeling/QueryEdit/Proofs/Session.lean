import QueryEdit.Session

/-!
# Sessions

Some commands of a session ask for a mutation, whose parts or whose text may be at fault
(`Session.Command.request?`). If nothing is at fault, the mutation is applied and told of,
once (`Session.step_of_request_ok`); otherwise the session stays as it is, and no mutation
is told of (`Session.step_of_request_error`). The other commands tell of no mutation.

`Session.History` is a run of commands with the mutations that are applied in it. Every
run has one, and its mutations are those that are told of (`Session.exists_history`).
-/

namespace QueryEdit

/-- The events that tell of mutations. -/
def traces (es : List Event) : List Event := es.filter fun e => e.level = .trace

theorem traces_append (es es' : List Event) : traces (es ++ es') = traces es ++ traces es' :=
  List.filter_append es es'

namespace Session

variable {c : Command} {m : Mutation} {e : TokenError}

/-- The mutation that a command asks for, or what is at fault with it. Questions and going back
    to saved URLs are no requests. -/
def Command.request? : Command → Option (Except TokenError Mutation)
  | edit m => some (.ok m)
  | apply key op operand => some (Mutation.ofParts key op operand)
  | token text => some ((Token.parse text).bind Mutation.ofToken)
  | look _ | state | save | restore _ | equalsSaved _ | equals _ => none

/-! ### One command -/

/-- A mutation that is asked for is applied, and told of. -/
theorem step_of_request_ok (h : c.request? = some (.ok m)) (s : Session) :
    s.step c = ⟨s.afterEdit (.ok (s.url.edit m)), [.applied m]⟩ := by
  cases c with
  | edit m' =>
    cases h
    rfl
  | apply key op operand =>
    have hr := Url.run_performParts_of_ok (Option.some.inj h) s.url
    exact Traced.bind_pure_of_eq hr s.afterEdit
  | token text =>
    have hm := Option.some.inj h
    cases ht : Token.parse text with
    | error e =>
      rw [ht] at hm
      cases hm
    | ok t =>
      rw [ht] at hm
      refine Traced.bind_pure_of_eq ?_ s.afterEdit
      rw [Traced.run_bind_of_ok_nil (Token.run_read_of_ok ht)]
      exact Url.run_performParts_of_ok hm s.url
  | _ => cases h

/-- A request that is at fault changes nothing. -/
theorem step_of_request_error (h : c.request? = some (.error e)) (s : Session) :
    ∃ es, s.step c = ⟨s.afterEdit (.error e), es⟩ ∧ traces es = [] := by
  cases c with
  | edit m => cases h
  | apply key op operand =>
    have hr := Url.run_performParts_of_error (Option.some.inj h) s.url
    exact ⟨[], Traced.bind_pure_of_eq hr s.afterEdit, rfl⟩
  | token text =>
    have he := Option.some.inj h
    cases ht : Token.parse text with
    | error e' =>
      rw [ht] at he
      cases he
      have hr := Traced.run_bind_of_error (Token.run_read_of_error ht) s.url.performToken
      exact ⟨_, Traced.bind_pure_of_eq hr s.afterEdit, rfl⟩
    | ok t =>
      rw [ht] at he
      refine ⟨[], Traced.bind_pure_of_eq ?_ s.afterEdit, rfl⟩
      rw [Traced.run_bind_of_ok_nil (Token.run_read_of_ok ht)]
      exact Url.run_performParts_of_error he s.url
  | _ => cases h

/-- A request replies with what comes of its mutation. -/
theorem result_step_of_request {x : Except TokenError Mutation} (h : c.request? = some x)
    (s : Session) : (s.step c).result = s.afterEdit (x.map s.url.edit) := by
  cases x with
  | ok m =>
    rw [step_of_request_ok h]
    rfl
  | error e =>
    obtain ⟨es, hs, -⟩ := step_of_request_error h s
    rw [hs]
    rfl

/-- To compare with a text changes nothing, and needs the text to be a URL. -/
theorem result_step_equals (s : Session) (text : String) :
    (s.step (.equals text)).result =
      match Url.parse text with
      | .ok u => (.equal (s.url == u), s)
      | .error e => (.badUrl e, s) := by
  rw [step, Traced.result_bind]
  cases hu : Url.parse text with
  | ok u =>
    rw [Url.run_read_of_ok hu]
    rfl
  | error e =>
    rw [Url.run_read_of_error hu]
    rfl

theorem traces_step_of_request_none (h : c.request? = none) (s : Session) :
    traces (s.step c).events = [] := by
  cases c with
  | edit m => cases h
  | apply key op operand => cases h
  | token text => cases h
  | equals text =>
    -- A text that is no URL is told of, but as a rejected URL.
    rw [step, Traced.events_bind, traces_append]
    cases hu : Url.parse text with
    | ok u => rw [Url.run_read_of_ok hu]; rfl
    | error e => rw [Url.run_read_of_error hu]; rfl
  | _ => rfl

/-! ### Commands in turn -/

/-- A run of commands: its replies, the mutations that are applied, and the session in the end.
    A request applies its mutation to the URL, or fails and leaves the session as it is. -/
inductive History : Session → List Command → List Reply → List Mutation → Session → Prop
  | nil (s : Session) : History s [] [] [] s
  | applied {s s' : Session} {c : Command} {cs : List Command} {m : Mutation} {rs : List Reply}
      {ms : List Mutation} : c.request? = some (.ok m) →
      History { s with url := s.url.edit m } cs rs ms s' →
      History s (c :: cs) (.edited (s.url.edit m) :: rs) (m :: ms) s'
  | failed {s s' : Session} {c : Command} {cs : List Command} {e : TokenError} {rs : List Reply}
      {ms : List Mutation} : c.request? = some (.error e) → History s cs rs ms s' →
      History s (c :: cs) (.badToken e :: rs) ms s'
  | other {s s₁ s' : Session} {c : Command} {cs : List Command} {r : Reply} {rs : List Reply}
      {ms : List Mutation} : c.request? = none → (s.step c).result = (r, s₁) →
      History s₁ cs rs ms s' → History s (c :: cs) (r :: rs) ms s'

theorem result_run_cons (s : Session) (c : Command) (cs : List Command) :
    (s.run (c :: cs)).result =
      ((s.step c).result.1 :: ((s.step c).result.2.run cs).result.1,
        ((s.step c).result.2.run cs).result.2) := rfl

/-- The events of a run are those of its commands in turn. -/
theorem events_run_cons (s : Session) (c : Command) (cs : List Command) :
    (s.run (c :: cs)).events = (s.step c).events ++ ((s.step c).result.2.run cs).events := by
  rw [run, Traced.events_bind, Traced.events_bind, Traced.events_pure, List.append_nil]

/-- A run tells of the mutations that are applied in it, each once and in order, and of no
    others. -/
theorem exists_history (s : Session) (cs : List Command) :
    ∃ ms, History s cs (s.run cs).result.1 ms (s.run cs).result.2 ∧
      traces (s.run cs).events = ms.map .applied := by
  induction cs generalizing s with
  | nil => exact ⟨[], .nil s, rfl⟩
  | cons c cs ih =>
    rw [result_run_cons, events_run_cons, traces_append]
    obtain ⟨ms, hms, hes⟩ := ih (s.step c).result.2
    rw [hes]
    cases hc : c.request? with
    | none =>
      rw [traces_step_of_request_none hc]
      exact ⟨ms, .other hc rfl hms, rfl⟩
    | some x =>
      cases x with
      | error e =>
        obtain ⟨es, hs, he⟩ := step_of_request_error hc s
        rw [hs] at hms ⊢
        rw [he]
        exact ⟨ms, .failed hc hms, rfl⟩
      | ok m =>
        rw [step_of_request_ok hc] at hms ⊢
        exact ⟨m :: ms, .applied hc hms, rfl⟩

end Session

end QueryEdit
