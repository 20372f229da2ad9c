import QueryEdit.Proofs.Text.Decimal
import QueryEdit.Token.Text

/-!
# The literals of values

Which texts are literals, and of which values, is said without the functions that read them:

* `Literal.Reads`: the text behind an opening quote, item by item. A backslash takes a quote of
  either kind or another backslash with it, and any other character is an item of its own. The
  first closing quote that is an item of its own is the last character;
* `Value.Spells`: the literals of null, of the integers of 64 bits, and of texts.

A literal is read as the value that it spells, and every other text is refused
(`Value.ofLiteral_spells`).
-/

namespace QueryEdit

/-! ### Quoted texts -/

namespace Literal

/-- The text behind the opening quote `q`, up to the closing quote, and what it stands for. -/
inductive Reads (q : Char) : List Char → List Char → Prop
  | close : Reads q [q] []
  | escape {c : Char} {s t : List Char} : c ∈ ['"', '\'', '\\'] → Reads q s t →
      Reads q ('\\' :: c :: s) (c :: t)
  /-- A backslash that nothing follows to be taken with it stands for itself. -/
  | char {c : Char} {s t : List Char} : c ≠ q →
      (c = '\\' → ∀ d ∈ s.head?, d ∉ ['"', '\'', '\\']) → Reads q s t → Reads q (c :: s) (c :: t)

variable {q c d : Char} {s t : List Char}

/-- A backslash takes a quote of either kind or a backslash with it. -/
theorem isEscapable_iff : isEscapable c = true ↔ c ∈ ['"', '\'', '\\'] := by
  simp [isEscapable, or_assoc]

/-! How the first character is read. -/

/-- A backslash is dropped before a character that it takes with it. -/
theorem unquote?_escape_cons (h : c ∈ ['"', '\'', '\\']) (s : List Char) :
    unquote? q ('\\' :: c :: s) = (unquote? q s).map (c :: ·) := by
  rw [unquote?, if_pos (isEscapable_iff.2 h)]

/-- A backslash before any other character stays. -/
theorem unquote?_backslash_cons (h : c ∉ ['"', '\'', '\\']) (s : List Char) :
    unquote? q ('\\' :: c :: s) = (unquote? q (c :: s)).map ('\\' :: ·) := by
  rw [unquote?, if_neg (mt isEscapable_iff.1 h)]

/-- A quote closes the text if nothing follows it, and any other character stays. -/
theorem unquote?_cons (h : c ≠ '\\') (s : List Char) :
    unquote? q (c :: s) =
      if c = q then (if s = [] then some [] else none) else (unquote? q s).map (c :: ·) := by
  rw [unquote?]
  rintro d r rfl
  exact absurd rfl h

/-- A quoted text is read as what it stands for. -/
theorem Reads.unquote?_eq (h : Reads q s t) (hq : q ≠ '\\') : unquote? q s = some t := by
  induction h with
  | close => rw [unquote?_cons hq, if_pos rfl, if_pos rfl]
  | escape hc _ ih => rw [unquote?_escape_cons hc, ih, Option.map_some]
  | @char c s t hcq hback hs ih =>
    by_cases hc : c = '\\'
    · subst hc
      cases s with
      | nil => cases hs
      | cons d s => rw [unquote?_backslash_cons (hback rfl d rfl), ih, Option.map_some]
    · rw [unquote?_cons hc, if_neg hcq, ih, Option.map_some]

/-- Only quoted texts are read. -/
theorem reads_of_unquote? (hq : q ≠ '\\') (h : unquote? q s = some t) : Reads q s t := by
  fun_induction unquote? q s generalizing t with
  | case1 => cases h
  | case2 c s hc ih =>
    obtain ⟨t, ht, rfl⟩ := Option.map_eq_some_iff.1 h
    exact .escape (isEscapable_iff.1 hc) (ih ht)
  | case3 c s hc ih =>
    obtain ⟨t, ht, rfl⟩ := Option.map_eq_some_iff.1 h
    refine .char hq.symm (fun _ d hd => ?_) (ih ht)
    cases hd
    exact mt isEscapable_iff.2 hc
  | case4 =>
    cases h
    exact .close
  | case5 => cases h
  | case6 c s hback hcq ih =>
    obtain ⟨t, ht, rfl⟩ := Option.map_eq_some_iff.1 h
    refine .char hcq (fun hc d hd => ?_) (ih ht)
    -- A backslash is read here only if it is the last character.
    cases s with
    | nil => cases hd
    | cons e s => exact (hback e s hc rfl).elim

/-- What is read behind the opening quote. -/
theorem reads_iff (hq : q ≠ '\\') : Reads q s t ↔ unquote? q s = some t :=
  ⟨fun h => h.unquote?_eq hq, reads_of_unquote? hq⟩

end Literal

/-! ### Values -/

namespace Value

/-- The value that a text is the literal of. -/
inductive Spells (s : List Char) : Value → Prop
  | null : s ∈ ["None".toList, "null".toList] → Spells s .null
  | int {n : Int} {w : Int64} : Decimal.Denotes s n → Decimal.IsWord n → w.toInt = n →
      Spells s (.int w)
  | text {q : Char} {r t : List Char} : q ∈ ['"', '\''] → s = q :: r → Literal.Reads q r t →
      Spells s (.text (String.ofList t))

variable {s r t : List Char} {q : Char} {v : Value} {w : Int64}

/-! Each kind of literal is read as such, since none begins as one of another kind. -/

/-- The literal of an integer is read as the integer. -/
theorem ofLiteral?_of_denotes (h : Decimal.Denotes s w.toInt) : ofLiteral? s = some (.int w) := by
  obtain ⟨c, r, rfl, hc⟩ := h.exists_cons
  have hc' : c ∉ ['N', 'n', '"', '\''] := by
    intro hm
    simp only [List.mem_cons, List.not_mem_nil, or_false] at hm
    rcases hm with rfl | rfl | rfl | rfl <;> revert hc <;> decide
  rw [ofLiteral?_cons r hc', Decimal.readInt64?_eq_some_iff.2 h, Option.map_some]

/-- What begins with a quote is read as a quoted text. -/
theorem ofLiteral?_quote (hq : q ∈ ['"', '\'']) (r : List Char) :
    ofLiteral? (q :: r) = (Literal.unquote? q r).map fun t => .text (String.ofList t) := by
  simp only [List.mem_cons, List.not_mem_nil, or_false] at hq
  rcases hq with rfl | rfl <;> simp [ofLiteral?, Literal.nullWords]

/-- A quote is not a backslash. -/
theorem ne_backslash (hq : q ∈ ['"', '\'']) : q ≠ '\\' := by
  rintro rfl
  revert hq
  decide

/-- A literal is read as the value that it spells. -/
theorem Spells.ofLiteral?_eq (h : Spells s v) : ofLiteral? s = some v := by
  cases h with
  | null hs => exact if_pos hs
  | int hd _ hw => exact ofLiteral?_of_denotes (hw ▸ hd)
  | text hq hs hr =>
    rw [hs, ofLiteral?_quote hq, (Literal.reads_iff (ne_backslash hq)).1 hr, Option.map_some]

/-- Only the literals of a value are read as it. -/
theorem spells_of_ofLiteral? (h : ofLiteral? s = some v) : Spells s v := by
  rw [ofLiteral?.eq_def] at h
  split_ifs at h with hs
  · cases h
    exact .null hs
  · split at h <;> obtain ⟨x, hx, rfl⟩ := Option.map_eq_some_iff.1 h
    · exact .text (by decide) rfl ((Literal.reads_iff (by decide)).2 hx)
    · exact .text (by decide) rfl ((Literal.reads_iff (by decide)).2 hx)
    · exact .int (Decimal.readInt64?_eq_some_iff.1 hx) (Decimal.isWord_toInt x) rfl

/-- A literal is read as the value that it spells. -/
theorem spells_iff : Spells s v ↔ ofLiteral? s = some v :=
  ⟨Spells.ofLiteral?_eq, spells_of_ofLiteral?⟩

/-- A text is read as the value that it spells, and refused as it stands if it spells none. -/
theorem ofLiteral_spells (l : String) :
    (∀ v, ofLiteral l = .ok v ↔ Spells l.toList v) ∧
      ∀ e, ofLiteral l = .error e ↔ e = .invalidLiteral l ∧ ∀ v, ¬Spells l.toList v := by
  simp only [spells_iff, ofLiteral]
  cases ofLiteral? l.toList with
  | none => simp [eq_comm]
  | some v => simp

/-- Of a run of backslashes before a quote, every second one is taken with the one before it. -/
example : ofLiteral "'\\\\\\'\\d\\\\'" = .ok (.text "\\'\\d\\") := by decide

end Value

end QueryEdit
