import QueryEdit.Proofs.Token.Grammar
import QueryEdit.Traced

/-!
# Reading a written token

A token is written as it is, without a check of its parts. They are checked in two
places: where a text is read as a token, character by character, and where the parts of
a token make a mutation. If only the key holds no character that symbols begin with, both
find the same fault, or none (`Token.parse_render`).

* `Token.parse_render_eq_ok_iff`: which tokens are read back from their texts;
* `Url.result_read_render`: a token can be applied by way of its text.
-/

namespace QueryEdit

namespace Token

variable {s key : String} {t : Token}

/-! ### Well-formed tokens -/

/-- The tokens that texts spell. -/
structure WellFormed (t : Token) : Prop where
  key_ne : t.key ≠ ""
  key_free : OperatorFree t.key
  /-- The operand is missing exactly where none is taken. -/
  operand : t.operand = none ↔ t.operator.isUnary = true
  /-- Null is taken by `=` only. -/
  null : t.operand = some .null → t.operator = .set

/-- What is spelled by a text is well-formed. -/
theorem wellFormed_of_spells (h : Spells s t) : t.WellFormed := by
  cases h with
  | unary hs hu =>
    refine ⟨hs.key_ne, hs.key_free, iff_of_true rfl hu, ?_⟩
    rintro ⟨⟩
  | binary hs hu _ _ hn =>
    exact ⟨hs.key_ne, hs.key_free, iff_of_false (Option.some_ne_none _) (Bool.eq_false_iff.1 hu),
      fun h => hn (Option.some.inj h)⟩

/-- The parts of a token make a mutation exactly if the token is well-formed, but for the
    characters of its key. -/
theorem exists_ofToken_eq_ok_iff : (∃ m, Mutation.ofToken t = .ok m) ↔
    t.key ≠ "" ∧ (t.operand = none ↔ t.operator.isUnary = true) ∧
      (t.operand = some .null → t.operator = .set) := by
  obtain ⟨key, op, operand⟩ := t
  by_cases hk : key = ""
  · simp [Mutation.ofToken, Mutation.ofParts, hk]
  · rcases operand with - | (s | n | -) <;> cases op <;>
      simp [Mutation.ofToken, Mutation.ofParts, hk, Operator.isUnary]

/-- A token is well-formed if its key holds no operator and its parts make a mutation. -/
theorem wellFormed_iff :
    t.WellFormed ↔ OperatorFree t.key ∧ ∃ m, Mutation.ofToken t = .ok m := by
  rw [exists_ofToken_eq_ok_iff]
  exact ⟨fun h => ⟨h.key_free, h.key_ne, h.operand, h.null⟩, fun ⟨hf, hk, ho, hn⟩ =>
    ⟨hk, hf, ho, hn⟩⟩

/-! ### The text of an operand -/

/-- The literal of a value is read as the value. -/
theorem ofLiteral_toLiteral (v : Value) : Value.ofLiteral (String.ofList v.toLiteral) = .ok v := by
  rw [Value.ofLiteral, String.toList_ofList, Value.ofLiteral?_toLiteral]

theorem toLiteral_ne_empty (v : Value) : String.ofList v.toLiteral ≠ "" := by
  -- The empty text is no literal.
  have he : Value.ofLiteral "" = .error (.invalidLiteral "") := by decide
  intro h
  have hv := ofLiteral_toLiteral v
  rw [h, he] at hv
  cases hv

theorem map_ofParts_none (hk : key ≠ "") (op : Operator) :
    ((Mutation.ofParts key op none).map fun _ => (none : Option Value)) =
      if op.isUnary then .ok none else .error (.missingOperand op) := by
  cases op <;> simp [Mutation.ofParts, hk, Operator.isUnary, Except.map]

theorem map_ofParts_some (hk : key ≠ "") (op : Operator) (v : Value) :
    ((Mutation.ofParts key op (some v)).map fun _ => some v) =
      if op.isUnary then .error (.unexpectedOperand op)
      else if v = .null ∧ op ≠ .set then .error (.nullOperand op) else .ok (some v) := by
  cases op <;> cases v <;> simp [Mutation.ofParts, hk, Operator.isUnary, Except.map]

/-- What is written for an operand is read as the operand if the parts make a mutation, and
    rejected for the same reason otherwise. -/
theorem readOperand_toLiteral (hk : key ≠ "") (op : Operator) (operand : Option Value) :
    readOperand op (String.ofList ((operand.map Value.toLiteral).getD [])) =
      (Mutation.ofParts key op operand).map fun _ => operand := by
  cases operand with
  | none =>
    rw [Option.map_none, Option.getD_none, String.ofList_nil, map_ofParts_none hk]
    cases hu : op.isUnary with
    | true => rw [readOperand_unary hu, if_pos rfl, if_pos rfl]
    | false => rw [readOperand_empty hu, if_neg Bool.false_ne_true]
  | some v =>
    have hne := toLiteral_ne_empty v
    rw [Option.map_some, Option.getD_some, map_ofParts_some hk]
    cases hu : op.isUnary with
    | true => rw [readOperand_unary hu, if_neg hne, if_pos rfl]
    | false =>
      rw [readOperand_of_ofLiteral hu hne (ofLiteral_toLiteral v), if_neg Bool.false_ne_true]

/-! ### The text of a token -/

/-- A token whose key holds no character that symbols begin with is read back from its text if
    its parts make a mutation, and rejected for the same reason otherwise. -/
theorem parse_render (h : OperatorFree t.key) :
    parse t.render = (Mutation.ofToken t).map fun _ => t := by
  obtain ⟨key, op, operand⟩ := t
  rw [render, String.append_assoc, parse_append h (atOperator_symbol op _), Mutation.ofToken]
  split_ifs with hk
  · subst hk
    rfl
  · rw [String.toList_append, Operator.strip?_append, Option.elim_some, String.ofList_toList,
      readOperand_toLiteral hk]
    cases Mutation.ofParts key op operand <;> rfl

/-- A token is read back from its text exactly if it is well-formed. Every token that is read
    is. -/
theorem parse_render_eq_ok_iff (t : Token) :
    (parse t.render = .ok t ↔ t.WellFormed) ∧
      ∀ s, parse s = .ok t → parse t.render = .ok t := by
  have hback : t.WellFormed → parse t.render = .ok t := by
    intro h
    obtain ⟨hf, m, hm⟩ := wellFormed_iff.1 h
    rw [parse_render hf, hm]
    rfl
  refine ⟨⟨fun h => wellFormed_of_spells (parse_eq_ok_iff.1 h), hback⟩, fun s h => hback ?_⟩
  exact wellFormed_of_spells (parse_eq_ok_iff.1 h)

/-- A text between single quotes is read, and written between double quotes. -/
theorem parse_render_quotes :
    ∃ t, parse "k~='it\\'s \"x\" \\ y'" = .ok t ∧ t.render = "k~=\"it's \\\"x\\\" \\\\ y\"" ∧
      parse t.render = .ok t := by
  obtain ⟨t, ht, hr⟩ : ∃ t, parse "k~='it\\'s \"x\" \\ y'" = .ok t ∧
      t.render = "k~=\"it's \\\"x\\\" \\\\ y\"" := ⟨_, rfl, by decide⟩
  exact ⟨t, ht, hr, (parse_render_eq_ok_iff t).2 _ ht⟩

end Token

namespace Url

/-- A token whose key holds no character that symbols begin with can be applied by way of its
    text, with the same URL or the same error. -/
theorem result_read_render (u : Url) {t : Token} (h : Token.OperatorFree t.key) :
    (Token.read t.render >>= u.performToken).run.result = (u.performToken t).run.result := by
  have hread : (Token.read t.render).run.result = (Mutation.ofToken t).map fun _ => t :=
    Token.parse_render h
  have hperform : (u.performToken t).run.result = (Mutation.ofToken t).map u.edit :=
    result_performParts u t.key t.operator t.operand
  rw [Traced.result_run_bind, hread, hperform]
  cases hm : Mutation.ofToken t with
  | error e => rfl
  | ok m =>
    -- The token was read back, and is performed as it is.
    rw [hm] at hperform
    exact hperform

/-- A quote in the value of a pair is escaped in the token and in the URL, each in its way. -/
theorem result_read_render_remove :
    ∃ u v, parse "/?a+b=x%22&c" = .ok u ∧ Token.OperatorFree "a b" ∧
      (Token.read (Token.render ⟨"a b", .remove, some (.text "x\"")⟩) >>=
        u.performToken).run.result = .ok v ∧ v.render = "/?c=" := by
  have hk : Token.OperatorFree "a b" := by decide
  exact ⟨_, _, rfl, hk, (result_read_render _ hk).trans rfl, by decide⟩

end Url

end QueryEdit
