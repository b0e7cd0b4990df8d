import RequestCompiler.Proofs.Expression.Leads

/-!
# The text of an expression is unambiguous

Only operands made with a two-operand operator stand in parentheses, so what is known from a text
depends on what may follow it. A text that begins with a word of its own is known whatever mark
follows, for its operands are delimited (`Known.led`). Any other text could go on with a further
operator, and is known where an expression ends: at a closing parenthesis, at a comma, in front of
the words between the operands of a substring and at the end of all (`Known.whole`).

* `text_withoutOrdinals` — the text does not tell the ordinals of arguments.
* `known` — it tells everything else, by induction over the expression.
* `text_eq_iff` — two texts are the same if and only if the expressions are, up to ordinals.
-/

namespace RequestCompiler

/-- What may stand behind a whole expression. -/
inductive Ends : List Char → Prop where
  | nil : Ends []
  | parenthesis (rest : List Char) : Ends (')' :: rest)
  | comma (rest : List Char) : Ends (',' :: rest)
  | word (rest : List Char) : Ends (' ' :: 'F' :: rest)

theorem Ends.breaks {rest : List Char} (h : Ends rest) : Breaks rest := by
  cases h with
  | nil => exact .nil
  | _ => exact .cons (by decide) _

theorem Ends.before_start (rest : List Char) : Ends (" FROM ".toList ++ rest) := .word _

theorem Ends.before_length (rest : List Char) : Ends (" FOR ".toList ++ rest) := .word _

/-- An expression does not end in front of an operator. -/
theorem Ends.ne_operator {rest : List Char} (h : Ends rest) (operator : BinaryOperator)
    (tail : List Char) : rest ≠ ' ' :: (operator.text.toList ++ tail) := by
  rintro rfl
  have hfirst := head_operator_ne operator
  cases hoperator : operator.text.toList with
  | nil => cases operator <;> cases hoperator
  | cons c cs =>
    rw [hoperator] at h hfirst
    cases h
    exact hfirst rfl

namespace Expression

/-! ## Ordinals -/

/-- The expression with all arguments made the same. -/
def withoutOrdinals : Expression → Expression
  | .column context name => .column context name
  | .argument _ => .argument 0
  | .unary operator operand => .unary operator operand.withoutOrdinals
  | .binary operator left right => .binary operator left.withoutOrdinals right.withoutOrdinals
  | .substring string start length =>
    .substring string.withoutOrdinals start.withoutOrdinals length.withoutOrdinals
  | .aggregate function operand => .aggregate function operand.withoutOrdinals
  | .aggregateRows function => .aggregateRows function
  | .derived label => .derived label

theorem isBinary_withoutOrdinals (e : Expression) : e.withoutOrdinals.isBinary = e.isBinary := by
  cases e <;> rfl

theorem operandLetters_withoutOrdinals {e : Expression}
    (h : e.withoutOrdinals.letters = e.letters) :
    e.withoutOrdinals.operandLetters = e.operandLetters := by
  rw [operandLetters, operandLetters, isBinary_withoutOrdinals, h]

/-- Arguments are written the same, whatever their ordinals. -/
theorem letters_withoutOrdinals (e : Expression) : e.withoutOrdinals.letters = e.letters := by
  induction e with
  | column _ _ => rfl
  | argument _ => rfl
  | aggregateRows _ => rfl
  | derived _ => rfl
  | unary operator operand ih =>
    rw [withoutOrdinals]
    by_cases hop : operator = .not
    · subst hop
      rw [(Begins.not _).letters_eq, (Begins.not _).letters_eq, operandLetters_withoutOrdinals ih]
    · rw [(Begins.unary hop _).letters_eq, (Begins.unary hop _).letters_eq, ih]
  | binary operator left right ihl ihr =>
    rw [withoutOrdinals]
    by_cases hop : operator = .concat
    · subst hop
      rw [(Begins.concat _ _).letters_eq, (Begins.concat _ _).letters_eq, ihl, ihr]
    · rw [letters_between hop, letters_between hop, operandLetters_withoutOrdinals ihl,
        operandLetters_withoutOrdinals ihr]
  | substring string start length ihs ihb ihl =>
    rw [withoutOrdinals, (Begins.substring _ _ _).letters_eq, (Begins.substring _ _ _).letters_eq,
      ihs, ihb, ihl]
  | aggregate function operand ih =>
    rw [withoutOrdinals, (Begins.aggregate _ _).letters_eq, (Begins.aggregate _ _).letters_eq, ih]

theorem text_withoutOrdinals (e : Expression) : e.withoutOrdinals.text = e.text :=
  String.toList_inj.mp (letters_withoutOrdinals e)

/-! ## Plainly named expressions -/

/-- Whether an expression has no derived columns, and plain names only. -/
def HasPlainNames (e : Expression) : Prop :=
  e.labels = [] ∧ ∀ column ∈ e.columns, IsPlainName column.2

instance : DecidablePred HasPlainNames := fun _ => inferInstanceAs (Decidable (_ ∧ _))

theorem hasPlainNames_unary {operator : UnaryOperator} {operand : Expression} :
    (Expression.unary operator operand).HasPlainNames ↔ operand.HasPlainNames := Iff.rfl

theorem hasPlainNames_aggregate {function : AggregateFunction} {operand : Expression} :
    (Expression.aggregate function operand).HasPlainNames ↔ operand.HasPlainNames := Iff.rfl

theorem hasPlainNames_binary {operator : BinaryOperator} {left right : Expression} :
    (Expression.binary operator left right).HasPlainNames ↔
      left.HasPlainNames ∧ right.HasPlainNames := by
  simp only [HasPlainNames, labels, columns, List.append_eq_nil_iff, List.forall_mem_append]
  exact and_and_and_comm

theorem hasPlainNames_substring {string start length : Expression} :
    (Expression.substring string start length).HasPlainNames ↔
      string.HasPlainNames ∧ start.HasPlainNames ∧ length.HasPlainNames := by
  simp only [HasPlainNames, labels, columns, List.append_eq_nil_iff, List.forall_mem_append]
  tauto

/-- Whether the text begins with a word of its own. -/
def IsLed (e : Expression) : Prop := ∃ a tail, e.Begins a tail

theorem Begins.isPlain {e : Expression} {a : Lead} {tail : List Char} (h : e.Begins a tail)
    (he : e.HasPlainNames) : a.IsPlain := by
  cases h with
  | column context name => exact he.2 (context, name) (List.mem_singleton_self _)
  | _ => trivial

/-- A text begins with a word of its own, or consists of operands around an operator. -/
theorem isLed_or_between {e : Expression} (h : e.HasPlainNames) :
    e.IsLed ∨ ∃ operator left right, operator ≠ .concat ∧ e = .binary operator left right := by
  cases e with
  | column context name => exact .inl ⟨_, _, .column context name⟩
  | argument ordinal => exact .inl ⟨_, _, .argument ordinal⟩
  | aggregateRows function => exact .inl ⟨_, _, .aggregateRows function⟩
  | derived label => cases h.1
  | substring string start length => exact .inl ⟨_, _, .substring string start length⟩
  | aggregate function operand => exact .inl ⟨_, _, .aggregate function operand⟩
  | unary operator operand =>
    by_cases hop : operator = .not
    · subst hop
      exact .inl ⟨_, _, .not operand⟩
    · exact .inl ⟨_, _, .unary hop operand⟩
  | binary operator left right =>
    by_cases hop : operator = .concat
    · subst hop
      exact .inl ⟨_, _, .concat left right⟩
    · exact .inr ⟨operator, left, right, hop, rfl⟩

theorem isLed_of_not_binary {e : Expression} (h : e.HasPlainNames) (hbinary : e.isBinary = false) :
    e.IsLed := by
  rcases isLed_or_between h with hled | ⟨operator, left, right, -, rfl⟩
  · exact hled
  · cases hbinary

/-- A word is no mark. -/
theorem IsLed.head_notMem {e : Expression} {rest tail : List Char} {c : Char} (h : e.IsLed)
    (he : e.HasPlainNames) (heq : e.letters ++ rest = c :: tail) : c ∉ marks := by
  obtain ⟨a, behind, hbegins⟩ := h
  obtain ⟨⟨d, ds, hd⟩, hword⟩ := a.text_isWord (hbegins.isPlain he)
  rw [hbegins.letters_eq, hd, List.cons_append, List.cons_append, List.cons_eq_cons] at heq
  exact heq.1 ▸ hword d (hd ▸ List.mem_cons_self)

theorem head_operandLetters {e : Expression} {rest tail : List Char} (he : e.HasPlainNames) :
    e.operandLetters ++ rest ≠ '*' :: tail := by
  intro heq
  cases hbinary : e.isBinary with
  | false =>
    rw [operandLetters_of_not_binary hbinary] at heq
    exact (isLed_of_not_binary he hbinary).head_notMem he heq (by decide)
  | true =>
    rw [operandLetters_of_binary hbinary] at heq
    cases heq

/-- The text of rows is not that of an expression. -/
theorem letters_ne_rows {e : Expression} {rest tail : List Char} (he : e.HasPlainNames) :
    e.letters ++ rest ≠ '*' :: tail := by
  rcases isLed_or_between he with hled | ⟨operator, left, right, hop, rfl⟩
  · exact fun heq => hled.head_notMem he heq (by decide)
  · rw [letters_between hop, List.append_assoc]
    exact head_operandLetters (hasPlainNames_binary.mp he).1

/-! ## What is known from a text -/

/-- What the text of an expression tells, when it stands in front of something else. -/
structure Known (e : Expression) : Prop where
  /-- A text that begins with a word is known in front of every mark. -/
  led : ∀ {e' : Expression} {rest rest' : List Char}, e.IsLed → e'.IsLed → e'.HasPlainNames →
    Breaks rest → Breaks rest' → e.letters ++ rest = e'.letters ++ rest' →
      e.withoutOrdinals = e'.withoutOrdinals ∧ rest = rest'
  /-- Every text is known where an expression ends. -/
  whole : ∀ {e' : Expression} {rest rest' : List Char}, e'.HasPlainNames →
    Ends rest → Ends rest' → e.letters ++ rest = e'.letters ++ rest' →
      e.withoutOrdinals = e'.withoutOrdinals ∧ rest = rest'

namespace Known

variable {e e' : Expression} {rest rest' : List Char}

/-- In parentheses every text is known. -/
theorem parenthesized (h : Known e) (he' : e'.HasPlainNames)
    (heq : parenthesize e.letters ++ rest = parenthesize e'.letters ++ rest') :
    e.withoutOrdinals = e'.withoutOrdinals ∧ rest = rest' := by
  obtain ⟨hsame, hrest⟩ := h.whole he' (.parenthesis rest) (.parenthesis rest')
    (parenthesize_append_inj.mp heq)
  exact ⟨hsame, (List.cons_eq_cons.mp hrest).2⟩

/-- Beside an operator every text is known. -/
theorem operand (h : Known e) (he : e.HasPlainNames) (he' : e'.HasPlainNames)
    (hrest : Breaks rest) (hrest' : Breaks rest')
    (heq : e.operandLetters ++ rest = e'.operandLetters ++ rest') :
    e.withoutOrdinals = e'.withoutOrdinals ∧ rest = rest' := by
  -- either both texts begin with words, or both stand in parentheses
  cases hbinary : e.isBinary with
  | false =>
    have hled := isLed_of_not_binary he hbinary
    rw [operandLetters_of_not_binary hbinary] at heq
    cases hbinary' : e'.isBinary with
    | false =>
      rw [operandLetters_of_not_binary hbinary'] at heq
      exact h.led hled (isLed_of_not_binary he' hbinary') he' hrest hrest' heq
    | true =>
      rw [operandLetters_of_binary hbinary'] at heq
      exact absurd (by decide) (hled.head_notMem he heq)
  | true =>
    rw [operandLetters_of_binary hbinary] at heq
    cases hbinary' : e'.isBinary with
    | false =>
      rw [operandLetters_of_not_binary hbinary'] at heq
      exact absurd (by decide) ((isLed_of_not_binary he' hbinary').head_notMem he' heq.symm)
    | true =>
      rw [operandLetters_of_binary hbinary'] at heq
      exact h.parenthesized he' heq

end Known

/-- A text that begins with a word and ends does not go on with an operator. -/
theorem IsLed.ne_between {e left right : Expression} {operator : BinaryOperator}
    {rest rest' : List Char} (hled : e.IsLed) (he : e.HasPlainNames) (hop : operator ≠ .concat)
    (hleft : left.HasPlainNames)
    (hsame : ∀ {tail : List Char}, left.IsLed → Breaks tail →
      e.letters ++ rest = left.letters ++ tail → rest = tail)
    (hrest : Ends rest) :
    e.letters ++ rest ≠ (Expression.binary operator left right).letters ++ rest' := by
  intro heq
  simp only [letters_between hop, List.append_assoc, List.cons_append] at heq
  cases hbinary : left.isBinary with
  | true =>
    rw [operandLetters_of_binary hbinary] at heq
    exact hled.head_notMem he heq (by decide)
  | false =>
    rw [operandLetters_of_not_binary hbinary] at heq
    have htail := hsame (isLed_of_not_binary hleft hbinary) (.cons (by decide) _) heq
    exact hrest.ne_operator operator _ htail

/-- What begins with a word is known when what stands behind the word is. -/
theorem Known.of_begins {e : Expression} {a : Lead} {tail : List Char} (hbegins : e.Begins a tail)
    (he : e.HasPlainNames)
    (h : ∀ {e' : Expression} {tail' rest rest' : List Char}, e'.Begins a tail' →
      e'.HasPlainNames → Breaks rest → Breaks rest' → tail ++ rest = tail' ++ rest' →
        e.withoutOrdinals = e'.withoutOrdinals ∧ rest = rest') : Known e := by
  have hled {e' : Expression} {rest rest' : List Char} (hled' : e'.IsLed) (he' : e'.HasPlainNames)
      (hrest : Breaks rest) (hrest' : Breaks rest')
      (heq : e.letters ++ rest = e'.letters ++ rest') :
      e.withoutOrdinals = e'.withoutOrdinals ∧ rest = rest' := by
    obtain ⟨a', tail', hbegins'⟩ := hled'
    rw [hbegins.letters_eq, hbegins'.letters_eq, List.append_assoc, List.append_assoc] at heq
    obtain ⟨htext, htail⟩ := cut_word (a.text_isWord (hbegins.isPlain he)).2
      (a'.text_isWord (hbegins'.isPlain he')).2 (hbegins.breaks hrest) (hbegins'.breaks hrest') heq
    -- the word is the same, so the rule by which the other text was written is known
    have hlead : a = a' := Lead.text_injective (hbegins.isPlain he) (hbegins'.isPlain he')
      (String.toList_inj.mp htext)
    subst hlead
    exact h hbegins' he' hrest hrest' htail
  refine ⟨fun _ => hled, fun {e' rest rest'} he' hrest hrest' heq => ?_⟩
  -- the other text cannot go on behind what this one is known to be
  rcases isLed_or_between he' with hled' | ⟨operator, left, right, hop, rfl⟩
  · exact hled hled' he' hrest.breaks hrest'.breaks heq
  · have hleft := (hasPlainNames_binary.mp he').1
    exact absurd heq (IsLed.ne_between ⟨a, tail, hbegins⟩ he hop hleft
      (fun hl htail heq => (hled hl hleft hrest.breaks htail heq).2) hrest)

/-- What stands around an operator is known when both operands are. -/
theorem Known.between {operator : BinaryOperator} {left right : Expression}
    (hop : operator ≠ .concat) (hleft : left.HasPlainNames) (hright : right.HasPlainNames)
    (hl : Known left) (hr : Known right) : Known (.binary operator left right) where
  led hled := by
    obtain ⟨a, tail, hbegins⟩ := hled
    cases hbegins
    exact absurd rfl hop
  whole {e' rest rest'} he' hrest hrest' heq := by
    rcases isLed_or_between he' with hled' | ⟨operator', left', right', hop', rfl⟩
    · exact absurd heq.symm (hled'.ne_between he' hop hleft
        (fun hled htail heq => (hl.led hled hled' he' htail hrest'.breaks heq.symm).2.symm) hrest')
    · obtain ⟨hleft', hright'⟩ := hasPlainNames_binary.mp he'
      simp only [letters_between hop, letters_between hop', List.append_assoc,
        List.cons_append] at heq
      obtain ⟨hsame, hbehind⟩ := hl.operand hleft hleft' (.cons (by decide) _)
        (.cons (by decide) _) heq
      obtain ⟨rfl, htail⟩ := cut_operator hop hop' (List.cons_eq_cons.mp hbehind).2
      obtain ⟨hsame', hend⟩ := hr.operand hright hright' hrest.breaks hrest'.breaks htail
      refine ⟨?_, hend⟩
      rw [withoutOrdinals, withoutOrdinals, hsame, hsame']

/-- Plainly named expressions are known from their texts. -/
theorem known {e : Expression} (he : e.HasPlainNames) : Known e := by
  -- once the first words agree, the other expression can only be made by the same rule: by `cases`
  -- its operands come to light, and what is known of those is the induction hypothesis
  induction e with
  | derived label => cases he.1
  | column context name =>
    refine .of_begins (.column context name) he fun hbegins' he' hrest hrest' htail => ?_
    cases hbegins'
    exact ⟨rfl, htail⟩
  | argument ordinal =>
    refine .of_begins (.argument ordinal) he fun hbegins' he' hrest hrest' htail => ?_
    cases hbegins'
    exact ⟨rfl, htail⟩
  | unary operator operand ih =>
    have hoperand := hasPlainNames_unary.mp he
    by_cases hop : operator = .not
    · subst hop
      refine .of_begins (.not operand) he fun hbegins' he' hrest hrest' htail => ?_
      cases hbegins' with
      | unary hop' _ => exact absurd rfl hop'
      | not operand' =>
        obtain ⟨hsame, hend⟩ := (ih hoperand).operand hoperand (hasPlainNames_unary.mp he') hrest
          hrest' (List.cons_eq_cons.mp htail).2
        exact ⟨congrArg (unary .not) hsame, hend⟩
    · refine .of_begins (.unary hop operand) he fun hbegins' he' hrest hrest' htail => ?_
      cases hbegins' with
      | not _ => exact absurd rfl hop
      | unary _ operand' =>
        obtain ⟨hsame, hend⟩ := (ih hoperand).parenthesized (hasPlainNames_unary.mp he') htail
        exact ⟨congrArg (unary operator) hsame, hend⟩
  | binary operator left right ihl ihr =>
    obtain ⟨hleft, hright⟩ := hasPlainNames_binary.mp he
    by_cases hop : operator = .concat
    · subst hop
      refine .of_begins (.concat left right) he fun hbegins' he' hrest hrest' htail => ?_
      cases hbegins' with
      | concat left' right' =>
        obtain ⟨hleft', hright'⟩ := hasPlainNames_binary.mp he'
        rw [parenthesize_append_inj, List.append_assoc, List.append_assoc] at htail
        obtain ⟨hsame, hbehind⟩ := (ihl hleft).whole hleft' (.comma _) (.comma _) htail
        obtain ⟨hsame', hend⟩ := (ihr hright).whole hright' (.parenthesis _) (.parenthesis _)
          (List.append_cancel_left_eq [',', ' '] _ _ |>.mp hbehind)
        refine ⟨?_, (List.cons_eq_cons.mp hend).2⟩
        rw [withoutOrdinals, withoutOrdinals, hsame, hsame']
    · exact .between hop hleft hright (ihl hleft) (ihr hright)
  | substring string start length ihs ihb ihl =>
    obtain ⟨hstring, hstart, hlength⟩ := hasPlainNames_substring.mp he
    refine .of_begins (.substring string start length) he fun hbegins' he' hrest hrest' htail => ?_
    cases hbegins' with
    | substring string' start' length' =>
      obtain ⟨hstring', hstart', hlength'⟩ := hasPlainNames_substring.mp he'
      simp only [parenthesize_append_inj, List.append_assoc] at htail
      obtain ⟨hsame, hbehind⟩ := (ihs hstring).whole hstring' (.before_start _) (.before_start _)
        htail
      obtain ⟨hsame', hbehind'⟩ := (ihb hstart).whole hstart' (.before_length _) (.before_length _)
        (List.append_cancel_left hbehind)
      obtain ⟨hsame'', hend⟩ := (ihl hlength).whole hlength' (.parenthesis _) (.parenthesis _)
        (List.append_cancel_left hbehind')
      refine ⟨?_, (List.cons_eq_cons.mp hend).2⟩
      rw [withoutOrdinals, withoutOrdinals, hsame, hsame', hsame'']
  | aggregate function operand ih =>
    have hoperand := hasPlainNames_aggregate.mp he
    refine .of_begins (.aggregate function operand) he fun hbegins' he' hrest hrest' htail => ?_
    cases hbegins' with
    | aggregate _ operand' =>
      obtain ⟨hsame, hend⟩ := (ih hoperand).parenthesized (hasPlainNames_aggregate.mp he') htail
      exact ⟨congrArg (aggregate function) hsame, hend⟩
    | aggregateRows _ =>
      -- aggregates of rows share their keyword with those of values
      exact absurd (parenthesize_append_inj.mp htail) (letters_ne_rows hoperand)
  | aggregateRows function =>
    refine .of_begins (.aggregateRows function) he fun hbegins' he' hrest hrest' htail => ?_
    cases hbegins' with
    | aggregate _ operand' =>
      exact absurd (parenthesize_append_inj.mp htail).symm
        (letters_ne_rows (hasPlainNames_aggregate.mp he'))
    | aggregateRows _ => exact ⟨rfl, List.append_cancel_left htail⟩

/-- Two plainly named expressions have the same text if and only if they are the same up to the
ordinals of their arguments. -/
theorem text_eq_iff {e e' : Expression} (he : e.HasPlainNames) (he' : e'.HasPlainNames) :
    e.text = e'.text ↔ e.withoutOrdinals = e'.withoutOrdinals := by
  constructor
  · intro h
    have hletters : e.letters ++ [] = e'.letters ++ [] := by rw [letters, h, letters]
    exact ((known he).whole he' .nil .nil hletters).1
  · intro h
    rw [← text_withoutOrdinals e, h, text_withoutOrdinals]

/-- A negation compared is not a comparison negated, though only the latter has parentheses. -/
theorem text_negation_compared :
    let name := Expression.column (.join 1) "first_name"
    (Expression.binary .equal name.not (.argument 0)).text ≠
        (Expression.binary .equal name (.argument 0)).not.text ∧
      (Expression.binary .equal name (.argument 1)).not.text =
        (Expression.binary .equal name (.argument 2)).not.text := by
  refine ⟨fun h => ?_, (text_eq_iff (by decide) (by decide)).mpr rfl⟩
  have hsame := (text_eq_iff (by decide) (by decide)).mp h
  cases hsame

end Expression

end RequestCompiler
