import QueryEdit.Proofs.Token.RoundTrip

/-!
# The mutations of tokens

A token stands for at most one mutation (`Token.StandsFor`), and its parts make this
mutation and no other (`Token.ofToken_eq_ok_iff`). A token that was read from a text
always stands for one (`Token.exists_standsFor_of_parse`), so nothing can go wrong any
more when it is applied.

Lists of texts are read up to the first that is no token (`Token.FirstRejected`), or to
the end (`Token.Spelled`).
-/

namespace QueryEdit

namespace Token

variable {s : String} {ss : List String} {t : Token} {ts : List Token} {m : Mutation}
  {e : TokenError}

/-- The mutation that a token stands for. The key is not empty, and the operand is one that the
    operator takes. -/
inductive StandsFor : Token → Mutation → Prop
  | set {key : String} {v : Value} : key ≠ "" → StandsFor ⟨key, .set, some v⟩ (.set key v)
  | add {key : String} {v : Value} : key ≠ "" → v ≠ .null →
      StandsFor ⟨key, .append, some v⟩ (.add key v.toText)
  | remove {key : String} {v : Value} : key ≠ "" → v ≠ .null →
      StandsFor ⟨key, .remove, some v⟩ (.remove key v.toText)
  | replace {key : String} {v : Value} : key ≠ "" → v ≠ .null →
      StandsFor ⟨key, .replace, some v⟩ (.replace key v.toText)
  | inc {key : String} : key ≠ "" → StandsFor ⟨key, .increment, none⟩ (.inc key 1)
  | dec {key : String} : key ≠ "" → StandsFor ⟨key, .decrement, none⟩ (.dec key 1)

/-- A token is made the mutation that it stands for. -/
theorem StandsFor.ofToken (h : t.StandsFor m) : Mutation.ofToken t = .ok m := by
  cases h with
  | set hk | inc hk | dec hk => simp [Mutation.ofToken, Mutation.ofParts, hk]
  | @add key v hk hv | @remove key v hk hv | @replace key v hk hv =>
    cases v <;> simp [Mutation.ofToken, Mutation.ofParts, hk] at hv ⊢

/-- A token is made no other mutation than the one that it stands for. -/
theorem standsFor_of_ofToken (h : Mutation.ofToken t = .ok m) : t.StandsFor m := by
  obtain ⟨key, op, operand⟩ := t
  have hk : key ≠ "" := (exists_ofToken_eq_ok_iff.1 ⟨m, h⟩).1
  simp only [Mutation.ofToken, Mutation.ofParts, String.isEmpty_iff, hk, if_false] at h
  -- One case for each way in which the parts fit together.
  split at h <;> cases h
  · exact .inc hk
  · exact .dec hk
  · exact .set hk
  · exact .add hk ‹_›
  · exact .remove hk ‹_›
  · exact .replace hk ‹_›

/-- The parts of a token make the mutation that the token stands for. -/
theorem ofToken_eq_ok_iff : Mutation.ofToken t = .ok m ↔ t.StandsFor m :=
  ⟨standsFor_of_ofToken, StandsFor.ofToken⟩

/-- Every token that is read stands for a mutation. -/
theorem exists_standsFor_of_parse (h : parse s = .ok t) : ∃ m, t.StandsFor m := by
  obtain ⟨m, hm⟩ := (wellFormed_iff.1 (wellFormed_of_spells (parse_eq_ok_iff.1 h))).2
  exact ⟨m, ofToken_eq_ok_iff.1 hm⟩

/-- Applying a token applies the mutation that it stands for, and cannot fail. -/
theorem StandsFor.run_performToken (h : t.StandsFor m) (u : Url) :
    (u.performToken t).run = ⟨.ok (u.edit m), [.applied m]⟩ :=
  Url.run_performParts_of_ok h.ofToken u

/-! ### Lists of tokens -/

/-- The texts spell the tokens, one by one. -/
def Spelled (ss : List String) (ts : List Token) : Prop :=
  List.Forall₂ (fun s t => parse s = .ok t) ss ts

/-- The first of the texts that is no token, and why it is none. -/
inductive FirstRejected : List String → String → TokenError → Prop
  | intro (before after : List String) {s : String} {e : TokenError} :
      (∀ b ∈ before, ∃ t, parse b = .ok t) → parse s = .error e →
      FirstRejected (before ++ s :: after) s e

theorem spelled_or_firstRejected (ss : List String) :
    (∃ ts, Spelled ss ts) ∨ ∃ s e, FirstRejected ss s e := by
  induction ss with
  | nil => exact .inl ⟨[], .nil⟩
  | cons s ss ih =>
    cases hs : parse s with
    | error e => exact .inr ⟨s, e, .intro [] ss (fun b hb => absurd hb List.not_mem_nil) hs⟩
    | ok t =>
      obtain ⟨ts, hts⟩ | ⟨s', e, ⟨before, after, hb, he⟩⟩ := ih
      · exact .inl ⟨t :: ts, .cons hs hts⟩
      · have hb' := List.forall_mem_cons.2 ⟨⟨t, hs⟩, hb⟩
        exact .inr ⟨s', e, .intro (s :: before) after hb' he⟩

theorem Spelled.exists_standsFor (h : Spelled ss ts) : ∃ ms, List.Forall₂ StandsFor ts ms := by
  induction h with
  | nil => exact ⟨[], .nil⟩
  | cons hs _ ih =>
    obtain ⟨m, hm⟩ := exists_standsFor_of_parse hs
    obtain ⟨ms, hms⟩ := ih
    exact ⟨m :: ms, .cons hm hms⟩

/-- Tokens are read without events. -/
theorem Spelled.run_mapM_read (h : Spelled ss ts) : (ss.mapM read).run = ⟨.ok ts, []⟩ := by
  induction h with
  | nil => rfl
  | cons hs _ ih =>
    rw [List.mapM_cons, Traced.run_bind_of_ok_nil (run_read_of_ok hs),
      Traced.run_bind_of_ok_nil ih]
    rfl

/-- The first text that is no token is told of, and no text behind it is read. -/
theorem FirstRejected.run_mapM_read (h : FirstRejected ss s e) :
    (ss.mapM read).run = ⟨.error e, [.rejectedToken s e]⟩ := by
  cases h with
  | intro before after hb he =>
    induction before with
    | nil => exact Traced.run_bind_of_error (run_read_of_error he) _
    | cons b before ih =>
      obtain ⟨⟨t, ht⟩, hb⟩ := List.forall_mem_cons.1 hb
      rw [List.cons_append, List.mapM_cons, Traced.run_bind_of_ok_nil (run_read_of_ok ht)]
      exact Traced.run_bind_of_error (ih hb) _

/-- Tokens in turn apply the mutations that they stand for, and tell of each. -/
theorem run_foldlM_performToken {ms : List Mutation} (h : List.Forall₂ StandsFor ts ms) (u : Url) :
    (ts.foldlM Url.performToken u).run = ⟨.ok (u.editAll ms), ms.map .applied⟩ := by
  induction h generalizing u with
  | nil => rfl
  | cons ht _ ih =>
    rw [List.foldlM_cons, Traced.run_bind_of_ok (ht.run_performToken u), ih]
    rfl

end Token

end QueryEdit
