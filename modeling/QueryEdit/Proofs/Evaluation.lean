import QueryEdit.Evaluation
import QueryEdit.Proofs.Token.Mutation

/-!
# Evaluations

An evaluation takes one of three ways, each with its result and its events:

* a text is no token: the first such text ends it, before the URL is read
  (`run_evaluate_of_firstRejected`);
* all texts are tokens, but the URL is rejected (`run_evaluate_of_parse_error`);
* otherwise the mutations that the tokens stand for are applied to the URL in turn
  (`run_evaluate_of_parse`). None of them can fail.

`Evaluates` says this of the results, and `result_evaluate_eq_iff` says that there are no
other ones.
-/

namespace QueryEdit

namespace Traced

variable {α ε ε' : Type} {x : ExceptT ε Traced α} {a : α} {e : ε} {es : List Event}

/-- Errors are renamed, and events stay. -/
theorem run_adapt (g : ε → ε') (x : ExceptT ε Traced α) :
    (ExceptT.adapt g x).run = ⟨x.run.result.mapError g, x.run.events⟩ := by
  change Traced.mk (x.run.result.mapError g) (x.run.events ++ []) = _
  rw [List.append_nil]

/-- A computation that succeeds has no error to be renamed. -/
theorem run_adapt_of_ok (h : x.run = ⟨.ok a, es⟩) (g : ε → ε') :
    (ExceptT.adapt g x).run = ⟨.ok a, es⟩ := by
  rw [run_adapt, h]
  rfl

/-- The error of a computation that fails is renamed. -/
theorem run_adapt_of_error (h : x.run = ⟨.error e, es⟩) (g : ε → ε') :
    (ExceptT.adapt g x).run = ⟨.error (g e), es⟩ := by
  rw [run_adapt, h]
  rfl

end Traced

variable {url : String} {tokens : List String} {ts : List Token} {ms : List Mutation} {u : Url}

/-! ### The three ways -/

/-- The first text that is no token ends the evaluation, and nothing else is told of. -/
theorem run_evaluate_of_firstRejected {s : String} {e : TokenError}
    (h : Token.FirstRejected tokens s e) (url : String) :
    (evaluate url tokens).run = ⟨.error (.token e), [.rejectedToken s e]⟩ := by
  have hr := Traced.run_adapt_of_error h.run_mapM_read EvaluationError.token
  rw [evaluate, Traced.run_bind_of_error hr]

/-- Once the tokens are read, the URL is. -/
theorem run_evaluate_of_spelled (h : Token.Spelled tokens ts) (url : String) :
    (evaluate url tokens).run = (do
      let u ← ExceptT.adapt .url (Url.read url)
      let u ← ExceptT.adapt .token (ts.foldlM Url.performToken u)
      return u.render : ExceptT EvaluationError Traced String).run := by
  have hr := Traced.run_adapt_of_ok h.run_mapM_read EvaluationError.token
  rw [evaluate, Traced.run_bind_of_ok_nil hr]

/-- If all texts are tokens, the evaluation ends with the error of the URL. -/
theorem run_evaluate_of_parse_error {e : UrlError} (h : Token.Spelled tokens ts)
    (he : Url.parse url = .error e) :
    (evaluate url tokens).run = ⟨.error (.url e), [.rejectedUrl url e]⟩ := by
  have hr := Traced.run_adapt_of_error (Url.run_read_of_error he) EvaluationError.url
  rw [run_evaluate_of_spelled h, Traced.run_bind_of_error hr]

/-- If all texts are tokens of a URL that is read, their mutations are applied and told of in turn.
    -/
theorem run_evaluate_of_parse (h : Token.Spelled tokens ts) (hu : Url.parse url = .ok u)
    (hms : List.Forall₂ Token.StandsFor ts ms) :
    (evaluate url tokens).run = ⟨.ok (u.editAll ms).render, ms.map .applied⟩ := by
  have hr := Traced.run_adapt_of_ok (Url.run_read_of_ok hu) EvaluationError.url
  have hf := Traced.run_adapt_of_ok (Token.run_foldlM_performToken hms u) EvaluationError.token
  rw [run_evaluate_of_spelled h, Traced.run_bind_of_ok_nil hr, Traced.run_bind_of_ok hf,
    ExceptT.run_pure, Traced.result_pure, Traced.events_pure, List.append_nil]

/-! ### Results -/

/-- What an evaluation comes to. -/
inductive Evaluates (url : String) (tokens : List String) : Except EvaluationError String → Prop
  | badToken {s : String} {e : TokenError} :
      Token.FirstRejected tokens s e → Evaluates url tokens (.error (.token e))
  | badUrl {ts : List Token} {e : UrlError} :
      Token.Spelled tokens ts → Url.parse url = .error e → Evaluates url tokens (.error (.url e))
  | edited {ts : List Token} {ms : List Mutation} {u : Url} :
      Token.Spelled tokens ts → Url.parse url = .ok u → List.Forall₂ Token.StandsFor ts ms →
      Evaluates url tokens (.ok (u.editAll ms).render)

variable {r : Except EvaluationError String}

/-- What an evaluation comes to is its result. -/
theorem Evaluates.result_eq (h : Evaluates url tokens r) :
    (evaluate url tokens).run.result = r := by
  cases h with
  | badToken h => rw [run_evaluate_of_firstRejected h]
  | badUrl h he => rw [run_evaluate_of_parse_error h he]
  | edited h hu hms => rw [run_evaluate_of_parse h hu hms]

/-- Every evaluation comes to something. -/
theorem exists_evaluates (url : String) (tokens : List String) : ∃ r, Evaluates url tokens r := by
  obtain ⟨ts, h⟩ | ⟨s, e, h⟩ := Token.spelled_or_firstRejected tokens
  · cases hu : Url.parse url with
    | error e => exact ⟨_, .badUrl h hu⟩
    | ok u =>
      obtain ⟨ms, hms⟩ := h.exists_standsFor
      exact ⟨_, .edited h hu hms⟩
  · exact ⟨_, .badToken h⟩

/-- An evaluation comes to what `Evaluates` says and to nothing else. Every token that is read
    can be applied to every URL, as the mutation that it stands for. -/
theorem result_evaluate_eq_iff (url : String) (tokens : List String) :
    (∀ r, (evaluate url tokens).run.result = r ↔ Evaluates url tokens r) ∧
      ∀ s t, Token.parse s = .ok t → ∃ m, t.StandsFor m ∧
        ∀ u : Url, (u.performToken t).run.result = .ok (u.edit m) := by
  refine ⟨fun r => ⟨?_, Evaluates.result_eq⟩, fun s t h => ?_⟩
  · rintro rfl
    obtain ⟨r, hr⟩ := exists_evaluates url tokens
    rw [hr.result_eq]
    exact hr
  · obtain ⟨m, hm⟩ := Token.exists_standsFor_of_parse h
    exact ⟨m, hm, fun u => by rw [hm.run_performToken u]⟩

/-- Three tokens are applied, and of three others the second is rejected. -/
theorem result_evaluate_eq_iff_remove :
    (∃ m, Token.StandsFor ⟨"a", .remove, some (.text "1")⟩ m ∧ ∀ u : Url,
      (u.performToken ⟨"a", .remove, some (.text "1")⟩).run.result = .ok (u.edit m)) ∧
    (evaluate "/?a=1" ["a+=2", "a-='1'", "a++"]).run.result = .ok "/?a=3" ∧
    (evaluate "/?a=1" ["a+=2", "a**", "-"]).run.result =
      .error (.token (.unknownOperator "a**")) := by
  have hp : Token.parse "a-='1'" = .ok ⟨"a", .remove, some (.text "1")⟩ := rfl
  let ts : List Token :=
    [⟨"a", .append, some (.int 2)⟩, ⟨"a", .remove, some (.text "1")⟩, ⟨"a", .increment, none⟩]
  have hs : Token.Spelled ["a+=2", "a-='1'", "a++"] ts := .cons rfl (.cons hp (.cons rfl .nil))
  have hms : List.Forall₂ Token.StandsFor ts [.add "a" "2", .remove "a" "1", .inc "a" 1] :=
    .cons (.add (by decide) (by decide)) (.cons (.remove (by decide) (by decide))
      (.cons (.inc (by decide)) .nil))
  have hr : Token.FirstRejected ["a+=2", "a**", "-"] "a**" (.unknownOperator "a**") :=
    .intro ["a+=2"] ["-"] (List.forall_mem_singleton.2 ⟨_, rfl⟩) rfl
  obtain ⟨hok, happly⟩ := result_evaluate_eq_iff "/?a=1" ["a+=2", "a-='1'", "a++"]
  obtain ⟨herror, -⟩ := result_evaluate_eq_iff "/?a=1" ["a+=2", "a**", "-"]
  refine ⟨happly _ _ hp, ((hok _).2 (.edited hs rfl hms)).trans ?_, (herror _).2 (.badToken hr)⟩
  decide

end QueryEdit
