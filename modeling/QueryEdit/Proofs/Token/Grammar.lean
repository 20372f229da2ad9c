import QueryEdit.Proofs.Text.Clean
import QueryEdit.Token.Text

/-!
# The grammar of tokens

A token is written as a key, the symbol of its operator and the literal of its operand
(`Token.Segments`). The key is not empty and holds none of the characters that symbols
begin with, so a text can be cut in this way at most once (`Token.Segments.unique`).

* `Token.Spells`: which token a text spells;
* `Token.Rejects`: why a text spells none;
* `Token.spells_or_rejects`: one of both is the case for every text, so that
  `Token.parse` does what they say (`Token.parse_eq_ok_iff`, `Token.parse_eq_error_iff`).
-/

namespace QueryEdit

/-- A text whose symbol is read begins with it. -/
theorem Operator.eq_append_of_strip? {op : Operator} {s rest : List Char}
    (h : strip? s = some (op, rest)) : s = op.symbol.toList ++ rest := by
  obtain ⟨op', _, h'⟩ := List.exists_of_findSome?_eq_some h
  rw [Option.map_eq_some_iff] at h'
  obtain ⟨rest', hr, he⟩ := h'
  cases he
  exact (List.append_eq_of_isPrefixOf?_eq_some hr).symm

namespace Token

/-! ### Texts of tokens -/

/-- No character of the text begins a symbol. -/
def OperatorFree (s : String) : Prop := ∀ c ∈ s.toList, c ∉ ['=', '+', '-', '~']

instance (s : String) : Decidable (OperatorFree s) := List.decidableBAll _ s.toList

/-- The first character of the text begins a symbol. -/
def AtOperator (s : String) : Prop := ∃ c ∈ s.toList.head?, c ∈ ['=', '+', '-', '~']

/-- The text is a key, the symbol of an operator, and a literal. -/
structure Segments (s key : String) (op : Operator) (literal : String) : Prop where
  eq_append : s = key ++ (op.symbol ++ literal)
  key_ne : key ≠ ""
  key_free : OperatorFree key

/-- The token that a text spells. Behind a unary operator there is nothing, and behind a binary
    one the literal of a value, which is null for `=` only. -/
inductive Spells (s : String) : Token → Prop
  | unary {key : String} {op : Operator} :
      Segments s key op "" → op.isUnary = true → Spells s ⟨key, op, none⟩
  | binary {key literal : String} {op : Operator} {v : Value} :
      Segments s key op literal → op.isUnary = false → literal ≠ "" →
      Value.ofLiteral literal = .ok v → (v = .null → op = .set) → Spells s ⟨key, op, some v⟩

/-- Why a text spells no token. -/
inductive Rejects : String → TokenError → Prop
  | noOperator {s : String} : OperatorFree s → Rejects s (.unknownOperator s)
  | missingKey {s : String} : AtOperator s → Rejects s .missingKey
  /-- Where the key ends there is the first character of a symbol, but no symbol. -/
  | noSymbol {key rest : String} : key ≠ "" → OperatorFree key → AtOperator rest →
      (∀ op literal, rest ≠ Operator.symbol op ++ literal) →
      Rejects (key ++ rest) (.unknownOperator rest)
  | unexpectedOperand {s key literal : String} {op : Operator} :
      Segments s key op literal → op.isUnary = true → literal ≠ "" →
      Rejects s (.unexpectedOperand op)
  | missingOperand {s key : String} {op : Operator} :
      Segments s key op "" → op.isUnary = false → Rejects s (.missingOperand op)
  | invalidLiteral {s key literal : String} {op : Operator} :
      Segments s key op literal → op.isUnary = false → literal ≠ "" →
      (∀ v, Value.ofLiteral literal ≠ .ok v) → Rejects s (.invalidLiteral literal)
  | nullOperand {s key literal : String} {op : Operator} :
      Segments s key op literal → op.isUnary = false → Value.ofLiteral literal = .ok .null →
      op ≠ .set → Rejects s (.nullOperand op)

variable {s key literal rest : String} {op : Operator} {t : Token} {e : TokenError}

/-! ### Where the key ends -/

/-- The characters that end a key, as they are listed. -/
theorem isOperatorChar_iff {c : Char} : isOperatorChar c = true ↔ c ∈ ['=', '+', '-', '~'] := by
  simp [isOperatorChar, or_assoc]

/-- The scan for the end of the key goes through a text without symbols. -/
theorem OperatorFree.not_isOperatorChar (h : OperatorFree s) :
    ∀ c ∈ s.toList, (!isOperatorChar c) = true := by
  intro c hc
  rw [Bool.not_eq_true', Bool.eq_false_iff]
  exact mt isOperatorChar_iff.1 (h c hc)

/-- The scan for the end of the key stops where a symbol may begin. -/
theorem AtOperator.isOperatorChar (h : AtOperator s) :
    ∀ c ∈ s.toList.head?, (!isOperatorChar c) = false := by
  obtain ⟨d, hd, hm⟩ := h
  intro c hc
  rw [Option.mem_unique hc hd, isOperatorChar_iff.2 hm, Bool.not_true]

/-- A text with a first character is not empty. -/
theorem AtOperator.ne_nil (h : AtOperator s) : s.toList ≠ [] := by
  obtain ⟨d, hd, -⟩ := h
  intro hs
  rw [hs] at hd
  cases hd

/-- Every symbol begins with one of the characters that end a key. -/
theorem atOperator_symbol (op : Operator) (literal : String) :
    AtOperator (op.symbol ++ literal) := by
  rw [AtOperator, String.toList_append]
  cases op <;> exact ⟨_, rfl, by decide⟩

/-- Every text begins with the longest part in which no symbol can begin. -/
theorem exists_operatorFree_append (s : String) :
    ∃ key rest, s = key ++ rest ∧ OperatorFree key ∧ (rest = "" ∨ AtOperator rest) := by
  let p : Char → Bool := fun c => !isOperatorChar c
  refine ⟨String.ofList (s.toList.takeWhile p), String.ofList (s.toList.dropWhile p), ?_, ?_, ?_⟩
  · rw [← String.ofList_append, List.takeWhile_append_dropWhile, String.ofList_toList]
  · intro c hc
    rw [String.toList_ofList] at hc
    have hp := List.all_eq_true.1 (List.all_takeWhile (l := s.toList) (p := p)) c hc
    rw [Bool.not_eq_true', Bool.eq_false_iff] at hp
    exact mt isOperatorChar_iff.2 hp
  · rw [AtOperator, String.toList_ofList]
    have hp := List.head?_dropWhile_not p s.toList
    cases hd : s.toList.dropWhile p with
    | nil => exact .inl rfl
    | cons c l =>
      rw [hd, List.head?_cons] at hp
      exact .inr ⟨c, rfl, isOperatorChar_iff.1 (by simpa [p] using hp)⟩

/-- There is at most one way to cut a text into a key, a symbol and a literal. -/
theorem Segments.unique {key' literal' : String} {op' : Operator} (h : Segments s key op literal)
    (h' : Segments s key' op' literal') : key = key' ∧ op = op' ∧ literal = literal' := by
  -- The key is scanned up to the first character that begins a symbol, and the symbol read there.
  have hcut : ∀ {k l : String} {o : Operator}, Segments s k o l →
      s.toList.takeWhile (fun c => !isOperatorChar c) = k.toList ∧
        Operator.strip? (s.toList.dropWhile fun c => !isOperatorChar c) = some (o, l.toList) := by
    intro k l o hs
    have hf := hs.key_free.not_isOperatorChar
    have ho := (atOperator_symbol o l).isOperatorChar
    rw [hs.eq_append, String.toList_append, Text.takeWhile_append_of_head? hf ho,
      Text.dropWhile_append_of_head? hf ho, String.toList_append, Operator.strip?_append]
    exact ⟨rfl, rfl⟩
  obtain ⟨hk, hl⟩ := hcut h
  obtain ⟨hk', hl'⟩ := hcut h'
  rw [hl, Option.some.injEq, Prod.mk.injEq] at hl'
  exact ⟨String.toList_inj.1 (hk.symm.trans hk'), hl'.1, String.toList_inj.1 hl'.2⟩

/-! ### Reading the key and the symbol -/

/-- A text in which no symbol can begin has no operator. -/
theorem parse_of_operatorFree (h : OperatorFree s) : parse s = .error (.unknownOperator s) := by
  have hd : s.toList.dropWhile (fun c => !isOperatorChar c) = [] :=
    List.dropWhile_eq_nil_iff.2 h.not_isOperatorChar
  simp only [parse, hd, List.isEmpty_nil, if_true]

/-- The key is read up to the first character that begins a symbol. -/
theorem parse_append (hk : OperatorFree key) (hr : AtOperator rest) :
    parse (key ++ rest) = if key = "" then .error .missingKey
      else (Operator.strip? rest.toList).elim (.error (.unknownOperator rest)) fun x =>
        (readOperand x.1 (String.ofList x.2)).map fun operand => ⟨key, x.1, operand⟩ := by
  have ht := Text.takeWhile_append_of_head? hk.not_isOperatorChar hr.isOperatorChar
  have hd := Text.dropWhile_append_of_head? hk.not_isOperatorChar hr.isOperatorChar
  have hne : rest.toList.isEmpty = false := List.isEmpty_eq_false_iff.2 hr.ne_nil
  rw [parse]
  simp only [String.toList_append, ht, hd, hne, String.ofList_toList, List.isEmpty_iff,
    String.toList_eq_nil_iff, Bool.false_eq_true, if_false]
  split_ifs
  · rfl
  · cases Operator.strip? rest.toList <;> rfl

/-- A text that begins like a symbol has no key. -/
theorem parse_of_atOperator (h : AtOperator s) : parse s = .error .missingKey := by
  have hk : OperatorFree "" := fun c hc => absurd hc List.not_mem_nil
  simpa using parse_append hk h

/-- A text without a symbol where its key ends is refused with what stands there. -/
theorem parse_of_noSymbol (hne : key ≠ "") (hk : OperatorFree key) (hr : AtOperator rest)
    (h : ∀ op literal, rest ≠ Operator.symbol op ++ literal) :
    parse (key ++ rest) = .error (.unknownOperator rest) := by
  have hs : Operator.strip? rest.toList = none := by
    refine Option.eq_none_iff_forall_ne_some.2 fun ⟨op, literal⟩ he => ?_
    refine h op (String.ofList literal) (String.toList_inj.1 ?_)
    rw [Operator.eq_append_of_strip? he, String.toList_append, String.toList_ofList]
  rw [parse_append hk hr, if_neg hne, hs, Option.elim_none]

/-- Of a text that is cut into segments, only the literal is left to be read. -/
theorem Segments.parse_eq (h : Segments s key op literal) :
    parse s = (readOperand op literal).map fun operand => ⟨key, op, operand⟩ := by
  rw [h.eq_append, parse_append h.key_free (atOperator_symbol op literal), if_neg h.key_ne,
    String.toList_append, Operator.strip?_append, Option.elim_some, String.ofList_toList]

/-! ### Reading the operand -/

/-- Nothing may stand behind a unary operator. -/
theorem readOperand_unary (h : op.isUnary = true) :
    readOperand op literal = if literal = "" then .ok none else .error (.unexpectedOperand op) := by
  rw [readOperand, if_pos h]
  simp only [String.isEmpty_iff]

/-- Something must stand behind a binary operator. -/
theorem readOperand_empty (h : op.isUnary = false) :
    readOperand op "" = .error (.missingOperand op) := by
  rw [readOperand, if_neg (Bool.eq_false_iff.1 h), if_pos (String.isEmpty_iff.2 rfl)]

theorem readOperand_of_ofLiteral {v : Value} (h : op.isUnary = false) (hne : literal ≠ "")
    (hv : Value.ofLiteral literal = .ok v) :
    readOperand op literal =
      if v = .null ∧ op ≠ .set then .error (.nullOperand op) else .ok (some v) := by
  have hn : v.isNull = true ↔ v = .null := by cases v <;> simp [Value.isNull]
  rw [readOperand, if_neg (Bool.eq_false_iff.1 h), if_neg (mt String.isEmpty_iff.1 hne), hv]
  simp only [← hn]
  rfl

theorem readOperand_of_not_ofLiteral (h : op.isUnary = false) (hne : literal ≠ "")
    (hv : ∀ v, Value.ofLiteral literal ≠ .ok v) :
    readOperand op literal = .error (.invalidLiteral literal) := by
  -- A literal that stands for no value is itself the reason.
  have he : Value.ofLiteral literal = .error (.invalidLiteral literal) := by
    rw [Value.ofLiteral] at hv ⊢
    cases hl : Value.ofLiteral? literal.toList with
    | none => rfl
    | some v => exact absurd (by rw [hl]) (hv v)
  rw [readOperand, if_neg (Bool.eq_false_iff.1 h), if_neg (mt String.isEmpty_iff.1 hne), he]
  rfl

/-! ### Reading a token -/

/-- A token is read from every text that spells it. -/
theorem parse_of_spells (h : Spells s t) : parse s = .ok t := by
  cases h with
  | unary hs hu =>
    rw [hs.parse_eq, readOperand_unary hu, if_pos rfl]
    rfl
  | binary hs hu hne hv hnull =>
    rw [hs.parse_eq, readOperand_of_ofLiteral hu hne hv, if_neg fun h => h.2 (hnull h.1)]
    rfl

/-- A text is refused with the error that is found in it. -/
theorem parse_of_rejects (h : Rejects s e) : parse s = .error e := by
  cases h with
  | noOperator h => exact parse_of_operatorFree h
  | missingKey h => exact parse_of_atOperator h
  | noSymbol hne hk hr h => exact parse_of_noSymbol hne hk hr h
  | unexpectedOperand hs hu hne =>
    rw [hs.parse_eq, readOperand_unary hu, if_neg hne]
    rfl
  | missingOperand hs hu =>
    rw [hs.parse_eq, readOperand_empty hu]
    rfl
  | invalidLiteral hs hu hne hv =>
    rw [hs.parse_eq, readOperand_of_not_ofLiteral hu hne hv]
    rfl
  | @nullOperand _ key literal op hs hu hv ho =>
    have hne : literal ≠ "" := by
      rintro rfl
      exact absurd hv (by decide)
    rw [hs.parse_eq, readOperand_of_ofLiteral hu hne hv, if_pos ⟨rfl, ho⟩]
    rfl

/-- Once a symbol stands behind a key, the literal decides. -/
theorem Segments.spells_or_rejects (h : Segments s key op literal) :
    (∃ t, Spells s t) ∨ ∃ e, Rejects s e := by
  cases hu : op.isUnary with
  | true =>
    by_cases hl : literal = ""
    · exact .inl ⟨_, .unary (hl ▸ h) hu⟩
    · exact .inr ⟨_, .unexpectedOperand h hu hl⟩
  | false =>
    by_cases hl : literal = ""
    · exact .inr ⟨_, .missingOperand (hl ▸ h) hu⟩
    · by_cases hv : ∃ v, Value.ofLiteral literal = .ok v
      · obtain ⟨v, hv⟩ := hv
        by_cases hn : v = .null → op = .set
        · exact .inl ⟨_, .binary h hu hl hv hn⟩
        · push Not at hn
          exact .inr ⟨_, .nullOperand h hu (hn.1 ▸ hv) hn.2⟩
      · push Not at hv
        exact .inr ⟨_, .invalidLiteral h hu hl hv⟩

/-- Every text spells a token, or there is a reason why it spells none. -/
theorem spells_or_rejects (s : String) : (∃ t, Spells s t) ∨ ∃ e, Rejects s e := by
  obtain ⟨key, rest, rfl, hk, hr⟩ := exists_operatorFree_append s
  obtain rfl | hr := hr
  · rw [String.append_empty]
    exact .inr ⟨_, .noOperator hk⟩
  by_cases hne : key = ""
  · rw [hne, String.empty_append]
    exact .inr ⟨_, .missingKey hr⟩
  by_cases hs : ∃ op literal, rest = Operator.symbol op ++ literal
  · obtain ⟨op, literal, rfl⟩ := hs
    exact Segments.spells_or_rejects ⟨rfl, hne, hk⟩
  · push Not at hs
    exact .inr ⟨_, .noSymbol hne hk hr hs⟩

/-- A text is read as the token that it spells. -/
theorem parse_eq_ok_iff : parse s = .ok t ↔ Spells s t := by
  refine ⟨fun h => ?_, parse_of_spells⟩
  obtain ⟨t', ht⟩ | ⟨e, he⟩ := spells_or_rejects s
  · rw [parse_of_spells ht, Except.ok.injEq] at h
    exact h ▸ ht
  · rw [parse_of_rejects he] at h
    cases h

/-- A text is rejected for the reason why it spells no token. -/
theorem parse_eq_error_iff : parse s = .error e ↔ Rejects s e := by
  refine ⟨fun h => ?_, parse_of_rejects⟩
  obtain ⟨t, ht⟩ | ⟨e', he⟩ := spells_or_rejects s
  · rw [parse_of_spells ht] at h
    cases h
  · rw [parse_of_rejects he, Except.error.injEq] at h
    exact h ▸ he

/-- A text is read as the token that it spells, or rejected for the reason why it spells none,
    and there is one way at most to cut it into a key, a symbol and a literal. -/
theorem parse_classifies (s : String) :
    (∀ t, parse s = .ok t ↔ Spells s t) ∧ (∀ e, parse s = .error e ↔ Rejects s e) ∧
      ∀ key op literal key' op' literal', Segments s key op literal →
        Segments s key' op' literal' → key = key' ∧ op = op' ∧ literal = literal' :=
  ⟨fun _ => parse_eq_ok_iff, fun _ => parse_eq_error_iff, fun _ _ _ _ _ _ => Segments.unique⟩

/-- In `a-=-1`, the key ends before `-=`, and cannot end before `=`. -/
theorem parse_classifies_minus :
    Segments "a-=-1" "a" .remove "-1" ∧ ¬Segments "a-=-1" "a-" .set "-1" ∧
      parse "a-=-1" = .ok ⟨"a", .remove, some (.int (-1))⟩ := by
  obtain ⟨hok, -, hunique⟩ := parse_classifies "a-=-1"
  have hs : Segments "a-=-1" "a" .remove "-1" := ⟨by decide, by decide, by decide⟩
  refine ⟨hs, fun h => ?_, (hok _).2 (.binary hs rfl (by decide) (by decide) (by decide))⟩
  exact absurd (hunique _ _ _ _ _ _ hs h).1 (by decide)

end Token

end QueryEdit
