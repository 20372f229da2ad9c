import QueryEdit.Event
import QueryEdit.Token.Text

/-!
# Results with events

`Traced α` is a result together with the events on the way to it, in order. Texts
are read (`Token.read`, `Url.read`) and mutations performed (`Url.perform`,
`Url.performParts`) as they are without events, and each tells what it did.
-/

namespace QueryEdit

/-- A result, and the events on the way to it. -/
structure Traced (α : Type) where
  result : α
  events : List Event

namespace Traced

variable {α β ε : Type}

instance : Monad Traced where
  pure a := ⟨a, []⟩
  bind x f := ⟨(f x.result).result, x.events ++ (f x.result).events⟩

instance : LawfulMonad Traced := LawfulMonad.mk' Traced
  (fun x => by cases x; simp [Functor.map])
  (fun x f => by simp [bind, pure])
  (fun x f g => by simp [bind, List.append_assoc])

/-- A value by itself is its own result. -/
@[simp] theorem result_pure (a : α) : (pure a : Traced α).result = a := rfl

/-- A value by itself tells of no events. -/
@[simp] theorem events_pure (a : α) : (pure a : Traced α).events = [] := rfl

/-- The second part goes on from the result of the first. -/
@[simp] theorem result_bind (x : Traced α) (f : α → Traced β) :
    (x >>= f).result = (f x.result).result := rfl

/-- The events of the second part follow those of the first. -/
@[simp] theorem events_bind (x : Traced α) (f : α → Traced β) :
    (x >>= f).events = x.events ++ (f x.result).events := rfl

/-- A function of the result adds no events. -/
theorem bind_pure_of_eq {x : Traced α} {a : α} {es : List Event} (h : x = ⟨a, es⟩) (f : α → β) :
    (x >>= fun a => pure (f a)) = ⟨f a, es⟩ := by
  subst h
  change Traced.mk (f a) (es ++ []) = _
  rw [List.append_nil]

/-- The result of a computation that can fail is that of its two parts in turn. -/
theorem result_run_bind (x : ExceptT ε Traced α) (f : α → ExceptT ε Traced β) :
    (x >>= f).run.result = x.run.result.bind fun a => (f a).run.result := by
  rw [ExceptT.run_bind, result_bind]
  cases x.run.result <;> rfl

section

variable {x : ExceptT ε Traced α} {a : α} {e : ε} {es : List Event}

/-- A computation that succeeds is gone on from, behind its events. -/
theorem run_bind_of_ok (h : x.run = ⟨.ok a, es⟩) (f : α → ExceptT ε Traced β) :
    (x >>= f).run = ⟨(f a).run.result, es ++ (f a).run.events⟩ := by
  rw [ExceptT.run_bind, h]
  rfl

/-- A computation without events passes its result on, and nothing else. -/
theorem run_bind_of_ok_nil (h : x.run = ⟨.ok a, []⟩) (f : α → ExceptT ε Traced β) :
    (x >>= f).run = (f a).run := by
  rw [run_bind_of_ok h, List.nil_append]

/-- A computation that fails is not gone on from. -/
theorem run_bind_of_error (h : x.run = ⟨.error e, es⟩) (f : α → ExceptT ε Traced β) :
    (x >>= f).run = ⟨.error e, es⟩ := by
  rw [ExceptT.run_bind, h]
  change Traced.mk _ (es ++ []) = _
  rw [List.append_nil]
  rfl

end

/-- A result known beforehand, with one event if it is an error. -/
def tellError (event : ε → Event) (r : Except ε α) : ExceptT ε Traced α :=
  ExceptT.mk ⟨r, match r with
    | .ok _ => []
    | .error e => [event e]⟩

end Traced

namespace Token

/-- Reads a token, and tells of a text that is none. -/
def read (s : String) : ExceptT TokenError Traced Token :=
  Traced.tellError (.rejectedToken s) (Token.parse s)

/-- Nothing is told of a text that is read. -/
theorem run_read_of_ok {s : String} {t : Token} (h : parse s = .ok t) :
    (read s).run = ⟨.ok t, []⟩ := by
  rw [read, h]
  rfl

/-- A text that is no token is told of, with the error. -/
theorem run_read_of_error {s : String} {e : TokenError} (h : parse s = .error e) :
    (read s).run = ⟨.error e, [.rejectedToken s e]⟩ := by
  rw [read, h]
  rfl

end Token

namespace Url

/-- Reads a URL, and tells of a text that is none. -/
def read (s : String) : ExceptT UrlError Traced Url :=
  Traced.tellError (.rejectedUrl s) (Url.parse s)

/-- Nothing is told of a text that is read. -/
theorem run_read_of_ok {s : String} {u : Url} (h : parse s = .ok u) :
    (read s).run = ⟨.ok u, []⟩ := by
  rw [read, h]
  rfl

/-- A text that is no URL is told of, with the error. -/
theorem run_read_of_error {s : String} {e : UrlError} (h : parse s = .error e) :
    (read s).run = ⟨.error e, [.rejectedUrl s e]⟩ := by
  rw [read, h]
  rfl

/-- Applies a mutation, and tells of it. -/
def perform (u : Url) (m : Mutation) : Traced Url := ⟨u.edit m, [.applied m]⟩

/-- Applies the mutation of a key, an operator and an operand, if they fit together. -/
def performParts (u : Url) (key : String) (op : Operator) (operand : Option Value) :
    ExceptT TokenError Traced Url :=
  match Mutation.ofParts key op operand with
  | .ok m => ExceptT.lift (u.perform m)
  | .error e => throw e

/-- The parts of a mutation are applied alike with and without events. -/
theorem result_performParts (u : Url) (key : String) (op : Operator) (operand : Option Value) :
    (u.performParts key op operand).run.result = u.apply key op operand := by
  rw [performParts, apply]
  cases Mutation.ofParts key op operand <;> rfl

section

variable {key : String} {op : Operator} {operand : Option Value}

/-- Parts that fit together are applied as their mutation, which is told of. -/
theorem run_performParts_of_ok {m : Mutation} (h : Mutation.ofParts key op operand = .ok m)
    (u : Url) : (u.performParts key op operand).run = ⟨.ok (u.edit m), [.applied m]⟩ := by
  rw [performParts, h]
  rfl

/-- Parts that do not fit together are not told of. -/
theorem run_performParts_of_error {e : TokenError} (h : Mutation.ofParts key op operand = .error e)
    (u : Url) : (u.performParts key op operand).run = ⟨.error e, []⟩ := by
  rw [performParts, h]
  rfl

end

/-- Applies a token, if its parts fit together. -/
def performToken (u : Url) (t : Token) : ExceptT TokenError Traced Url :=
  u.performParts t.key t.operator t.operand

end Url

end QueryEdit
