import Formula.Evaluation
import Formula.Proofs.Tree.Printing
import Formula.Proofs.Tree.Rules

/-! # Parsing undoes printing

A parser for a level reads back what was printed at that level, unless a limit on the nesting stops
it: the operands within a budget by the budget below, the operators of a level by induction on their
left operands, of which the loop over the operators takes no more turns than the text has characters.
-/

namespace Formula

/-! ## Facing a text -/

namespace Parser

/-- The token ahead is the first of the text. -/
def State.Faces (s : State) (rest : List Char) : Prop :=
  ∃ position, s.From ⟨rest, position⟩

/-- The first token of the text, if there is one, is as the condition wants it. -/
def Begins (rest : List Char) (P : Option Token → Prop) : Prop :=
  ∀ position, ∃ token cursor, (Cursor.mk rest position).next = (.ok token, cursor) ∧ P token

variable {s : State} {gap lexeme rest : List Char} {kind : Token.Kind} {P : Option Token → Prop}

theorem Begins.mono {Q : Option Token → Prop} (h : Begins rest P) (hPQ : ∀ token, P token → Q token) :
    Begins rest Q := by
  intro position
  obtain ⟨token, cursor, hnext, hP⟩ := h position
  exact ⟨token, cursor, hnext, hPQ token hP⟩

theorem Begins.behind_blanks (hblank : ∀ d ∈ gap, Text.isBlank d = true) (h : Begins rest P) :
    Begins (gap ++ rest) P := by
  intro position
  rw [Cursor.next_blanks hblank]
  exact h (position + gap.length)

theorem Begins.behind_gap (hgap : IsGap gap) (h : Begins rest P) : Begins (gap ++ rest) P :=
  h.behind_blanks hgap.blank

theorem begins_of_heads (hheads : Scan.Heads kind lexeme rest)
    (hP : ∀ position, P (some ⟨kind, kind.textOf lexeme, position, lexeme.length⟩)) :
    Begins (lexeme ++ rest) P := by
  intro position
  exact ⟨_, _, Cursor.next_of_heads hheads position, hP position⟩

/-- A state that faces a text has the first token of the text ahead. -/
theorem Begins.ahead (h : Begins rest P) (hs : s.Faces rest) : P s.ahead := by
  rcases hs with ⟨position, hfrom⟩
  rcases h position with ⟨token, cursor, hnext, hP⟩
  cases hfrom.symm.trans hnext
  exact hP

namespace State.Faces

theorem of_blanks (hblank : ∀ d ∈ gap, Text.isBlank d = true) (h : s.Faces (gap ++ rest)) :
    s.Faces rest := by
  rcases h with ⟨position, hfrom⟩
  rw [State.From, Cursor.next_blanks hblank] at hfrom
  exact ⟨position + gap.length, hfrom⟩

theorem of_gap (hgap : IsGap gap) (h : s.Faces (gap ++ rest)) : s.Faces rest :=
  h.of_blanks hgap.blank

end State.Faces

/-- At the end of the text nothing is ahead. -/
theorem State.Faces.ahead_nil (h : s.Faces []) : s.ahead = none := by
  obtain ⟨position, hfrom⟩ := h
  have hend : State.From ⟨none, ⟨[], position⟩⟩ ⟨[], position⟩ := Cursor.next_of_blank (by simp) _
  rw [State.From.unique hfrom hend]

/-- Before a lexeme, the token ahead is that lexeme and the cursor stands behind it. Taking it cannot
fail where another token follows. -/
theorem State.From.step {position : Nat} (failure : Error → Prop)
    (hs : s.From ⟨lexeme ++ rest, position⟩) (hheads : Scan.Heads kind lexeme rest)
    (hrest : Begins rest P) :
    s.ahead = some ⟨kind, kind.textOf lexeme, position, lexeme.length⟩ ∧
      s.cursor = ⟨rest, position + lexeme.length⟩ ∧
      ∀ e cursor, s.cursor.next = (.error e, cursor) → failure e := by
  rw [State.From, Cursor.next_of_heads hheads] at hs
  simp only [Prod.mk.injEq, Except.ok.injEq] at hs
  obtain ⟨hahead, hcursor⟩ := hs
  refine ⟨hahead.symm, hcursor.symm, ?_⟩
  intro e cursor hnext
  rw [← hcursor] at hnext
  rcases hrest (position + lexeme.length) with ⟨token, cursor', hnext', _⟩
  cases hnext.symm.trans hnext'

end Parser

/-! ## First tokens -/

open Formula.Parser

theorem infixOp?_of_ofSymbol? {op : InfixOp} {symbol : String} {kind : Token.Kind}
    {position length : Nat} (hop : InfixOp.ofSymbol? symbol = some op)
    (hkind : kind = .operator ∨ kind = .identifier) :
    Token.infixOp? ⟨kind, kind.textOf symbol.toList, position, length⟩ = some op := by
  rcases hkind with rfl | rfl
  · simpa [Token.infixOp?, Token.Kind.textOf] using hop
  · simpa [Token.infixOp?, Token.Kind.textOf] using hop

/-- What follows an expression begins with no opening parenthesis, and with no operator that belongs
to the expression. -/
theorem Behind.begins {limit : Nat} {rest : List Char} (h : Behind limit rest) :
    Begins rest fun token =>
      (∀ op, token.bind Token.infixOp? = some op → op.precedence < limit) ∧
        ∀ found, token = some found → found.isOpening "(" = false := by
  cases h with
  | done =>
    intro position
    refine ⟨none, _, Cursor.next_of_blank (by simp) position, ?_, ?_⟩
    · intro op hop
      cases hop
    · intro found hfound
      cases hfound
  | @closing gap rest hgap =>
    have hheads := Scan.heads_closing rest
    refine Begins.behind_gap hgap (begins_of_heads hheads ?_)
    intro position
    constructor
    · intro op hop
      cases hop
    · intro found hfound
      cases hfound
      rfl
  | @operator op symbol rest hop hlimit =>
    rcases heads_infix hop rest with ⟨kind, hkind, hheads⟩
    show Begins ([' '] ++ (symbol.toList ++ ' ' :: rest)) _
    refine Begins.behind_gap isGap_space (begins_of_heads hheads ?_)
    intro position
    constructor
    · intro op' hop'
      cases (infixOp?_of_ofSymbol? hop hkind).symm.trans hop'
      exact hlimit
    · intro found hfound
      cases hfound
      rcases hkind with rfl | rfl
      · rfl
      · rfl

section FirstTokens

variable {names : Names} {least limit : Nat} {t : Tree} {cs gap rest : List Char}

/-- What is printed behind a prefix operator keeps it apart from what follows. -/
theorem Tree.Prints.head_behind_gap (h : t.Prints names least cs) (hgap : IsGap gap) :
    ∀ c ∈ (gap ++ (cs ++ rest)).head?, c ≠ '=' := by
  intro c hc
  rcases hgap with rfl | rfl
  · rcases h.head with ⟨d, others, rfl, hd⟩
    cases hc
    exact hd
  · cases hc
    decide

/-- What is printed begins with a token. -/
theorem Tree.Prints.begins (h : t.Prints names least cs) (hrest : Behind limit rest) :
    Begins (cs ++ rest) (· ≠ none) := by
  induction h generalizing limit rest with
  | number h => exact begins_of_heads (Scan.heads_number h hrest.not_isNumeric) (by simp)
  | text h => exact begins_of_heads (Scan.heads_string h rest) (by simp)
  | bool h =>
    exact begins_of_heads (Scan.heads_identifier (fits_of_truth h) hrest.not_continuesName) (by simp)
  | reference hlexeme _ _ _ _ =>
    exact begins_of_heads (Scan.heads_identifier hlexeme hrest.not_continuesName) (by simp)
  | unary hop hgap h _ =>
    rw [List.append_assoc, List.append_assoc]
    exact begins_of_heads (heads_prefixOp hop (h.head_behind_gap hgap)) (by simp)
  | binary _ hop _ _ ihleft _ =>
    rw [List.append_assoc, List.append_assoc]
    exact ihleft (.operator hop (Nat.lt_succ_self _))
  | @parens _ _ _ _ before cs behind _ _ _ _ _ =>
    have hheads := Scan.heads_opening (before ++ cs ++ behind ++ [')'] ++ rest)
    have hbegins : Begins (['('] ++ (before ++ cs ++ behind ++ [')'] ++ rest)) (· ≠ none) :=
      begins_of_heads hheads (by simp)
    simpa using hbegins

end FirstTokens

/-! ## Parsing -/

/-- The nesting is beyond a limit. -/
def Error.IsLimit (e : Error) : Prop :=
  ∃ fault offset length, e = .positioned fault offset length ∧ fault.isLimit = true

/-- From `s`, the parser yields the tree and faces the text, or a limit stops it. -/
def Parser.Yields (x : Parser Tree) (s : State) (t : Tree) (rest : List Char) : Prop :=
  Meets x s (fun t' s' => t' = t ∧ s'.Faces rest) Error.IsLimit

/-- The parser reads back what is printed at a level and is not longer than `size`. -/
def Parser.Undoes (names : Names) (size least : Nat) (x : Parser Tree) : Prop :=
  ∀ {t cs rest s}, t.Prints names least cs → Behind least rest → cs.length ≤ size →
    s.Faces (cs ++ rest) → Yields x s t rest

namespace Parser

variable {setting : Setting} {inside : Parser Tree} {below : Option (Parser Tree)} {size : Nat}
  {cs rest : List Char} {s : State} {t : Tree}

/-- A lexeme that is neither an operator nor an opening bracket begins an operand by itself. -/
theorem meets_operandOver_of_lexeme {kind : Token.Kind} {lexeme : List Char} {position : Nat}
    {P : Option Token → Prop} {after : Tree → State → Prop} {failure : Error → Prop}
    (hs : s.From ⟨lexeme ++ rest, position⟩) (hheads : Scan.Heads kind lexeme rest)
    (hrest : Begins rest P) (hoperator : kind ≠ .operator)
    (hbracket : kind = .opening → kind.textOf lexeme ≠ "[")
    (hfrom : ∀ s' : State, s'.From ⟨rest, position + lexeme.length⟩ →
      Meets (operandFrom setting inside ⟨kind, kind.textOf lexeme, position, lexeme.length⟩) s' after
        failure) :
    Meets (operandOver setting inside below) s after failure := by
  rcases hs.step failure hheads hrest with ⟨hahead, hcursor, herror⟩
  have hprefixed : s.ahead.bind Token.prefixOp? = none := by
    rw [hahead]
    cases kind with
    | operator => exact absurd rfl hoperator
    | _ => rfl
  refine meets_operandOver (fun _ => meets_primary ?_ ?_ ?_) ?_
  · intro hnone
    cases hahead.symm.trans hnone
  · intro token htoken hopening
    cases hahead.symm.trans htoken
    simp only [Token.isOpening, Bool.and_eq_true, decide_eq_true_eq] at hopening
    exact absurd hopening.2 (hbracket hopening.1)
  · intro token htoken _
    cases hahead.symm.trans htoken
    refine meets_next ?_ herror
    intro s' hs'
    rw [hcursor] at hs'
    exact hfrom s' hs'
  · intro op hop
    cases hprefixed.symm.trans hop

/-- So does one that is faced. -/
theorem meets_operandOver_of_heads {kind : Token.Kind} {lexeme : List Char}
    {P : Option Token → Prop} {after : Tree → State → Prop} {failure : Error → Prop}
    (hs : s.Faces (lexeme ++ rest)) (hheads : Scan.Heads kind lexeme rest) (hrest : Begins rest P)
    (hoperator : kind ≠ .operator) (hbracket : kind = .opening → kind.textOf lexeme ≠ "[")
    (hfrom : ∀ position (s' : State), s'.Faces rest →
      Meets (operandFrom setting inside ⟨kind, kind.textOf lexeme, position, lexeme.length⟩) s' after
        failure) :
    Meets (operandOver setting inside below) s after failure := by
  obtain ⟨position, hs⟩ := hs
  exact meets_operandOver_of_lexeme hs hheads hrest hoperator hbracket
    fun s' hs' => hfrom position s' ⟨_, hs'⟩

theorem meets_name_of_truth {token : Token} {b : Bool} {after : Tree → State → Prop}
    {failure : Error → Prop}
    (h : Text.sameFolded token.text (if b then "true" else "false") = true)
    (hafter : after (.literal (.bool b)) s) : Meets (name setting token) s after failure := by
  unfold name
  cases b with
  | true =>
    have htrue : Text.sameFolded token.text "true" = true := h
    rw [if_pos htrue]
    exact meets_pure hafter
  | false =>
    have hfalse : Text.sameFolded token.text "false" = true := h
    have hnot : ¬ Text.sameFolded token.text "true" = true := by
      intro htrue
      have hfold := (of_decide_eq_true hfalse).symm.trans (of_decide_eq_true htrue)
      exact absurd hfold (by decide)
    rw [if_neg hnot, if_pos hfalse]
    exact meets_pure hafter

/-- A value that is one token is read back, within any budget, before what ends its lexeme. -/
theorem meets_operandOver_of_value {value : Value} {failure : Error → Prop} (h : value.Spelled cs)
    (hnumeric : ∀ c ∈ rest.head?, ¬ Scan.IsNumeric c)
    (hname : ∀ c ∈ rest.head?, Text.continuesName c = false) {P : Option Token → Prop}
    (hbegins : Begins rest P) (hs : s.Faces (cs ++ rest)) :
    Meets (operandOver setting inside below) s (fun t s' => t = .literal value ∧ s'.Faces rest)
      failure := by
  cases h with
  | number h =>
    refine meets_operandOver_of_heads hs (Scan.heads_number h hnumeric) hbegins ?_ ?_ ?_
    · intro hkind
      cases hkind
    · intro hkind
      cases hkind
    · intro _ s' hs'
      exact meets_pure ⟨rfl, hs'⟩
  | text h =>
    refine meets_operandOver_of_heads hs (Scan.heads_string h rest) hbegins ?_ ?_ ?_
    · intro hkind
      cases hkind
    · intro hkind
      cases hkind
    · intro _ s' hs'
      exact meets_pure ⟨by simp [Token.Kind.textOf], hs'⟩
  | bool h =>
    have hheads := Scan.heads_identifier (fits_of_truth h) hname
    refine meets_operandOver_of_heads hs hheads hbegins ?_ ?_ ?_
    · intro hkind
      cases hkind
    · intro hkind
      cases hkind
    · intro _ s' hs'
      exact meets_name_of_truth (by simpa [Token.Kind.textOf] using h) ⟨rfl, hs'⟩

theorem meets_operandOver_of_spelled {value : Value} {limit : Nat} {failure : Error → Prop}
    (h : value.Spelled cs) (hrest : Behind limit rest) (hs : s.Faces (cs ++ rest)) :
    Meets (operandOver setting inside below) s (fun t s' => t = .literal value ∧ s'.Faces rest)
      failure :=
  meets_operandOver_of_value h hrest.not_isNumeric hrest.not_continuesName hrest.begins hs

/-- A variable that is not called is referred to. -/
theorem meets_name_of_variable {token : Token} {failure : Error → Prop}
    (htrue : Text.sameFolded token.text "true" = false)
    (hfalse : Text.sameFolded token.text "false" = false)
    (hconstant : setting.names.constant? token.text = none)
    (hvariable : setting.names.isVariable token.text = true)
    (hcall : ∀ found, s.ahead = some found → found.isOpening "(" = false) (hs : s.Faces rest) :
    Meets (name setting token) s (fun t s' => t = .reference token.text ∧ s'.Faces rest) failure := by
  have halone : Meets (nameAlone setting token) s
      (fun t s' => t = .reference token.text ∧ s'.Faces rest) failure := by
    simp only [nameAlone, hconstant, hvariable, if_true]
    exact ⟨rfl, hs⟩
  unfold name
  rw [if_neg (by simp [htrue]), if_neg (by simp [hfalse])]
  refine meets_peek ?_
  cases hahead : s.ahead with
  | none => exact halone
  | some found =>
    simp only [hcall found hahead, Bool.false_and, Bool.false_eq_true, if_false]
    exact halone

/-- So is a variable at the head of a text, within any budget, before what ends its name. -/
theorem meets_operandOver_of_variable {written : String} {failure : Error → Prop}
    (hlexeme : Token.Kind.identifier.Fits written.toList)
    (htrue : Text.sameFolded written "true" = false)
    (hfalse : Text.sameFolded written "false" = false)
    (hconstant : setting.names.constant? written = none)
    (hvariable : setting.names.isVariable written = true)
    (hname : ∀ c ∈ rest.head?, Text.continuesName c = false)
    (hbegins : Begins rest fun token => ∀ found, token = some found → found.isOpening "(" = false)
    (hs : s.Faces (written.toList ++ rest)) :
    Meets (operandOver setting inside below) s
      (fun t s' => t = .reference written ∧ s'.Faces rest) failure := by
  have hheads := Scan.heads_identifier hlexeme hname
  refine meets_operandOver_of_heads hs hheads hbegins ?_ ?_ ?_
  · intro hkind
    cases hkind
  · intro hkind
    cases hkind
  · intro position s' hs'
    have htext : Token.Kind.identifier.textOf written.toList = written := by
      simp [Token.Kind.textOf]
    show Meets (name setting ⟨_, Token.Kind.identifier.textOf written.toList, _, _⟩) s' _ failure
    rw [htext]
    exact meets_name_of_variable htrue hfalse hconstant hvariable (hbegins.ahead hs') hs'

/-- A parenthesis closes the one that was opened. -/
theorem meets_close_of_closing {openedAt position : Nat} {P : Option Token → Prop}
    {failure : Error → Prop} (hrest : Begins rest P) (hs : s.From ⟨')' :: rest, position⟩) :
    Meets (close openedAt) s (fun _ s' => s'.From ⟨rest, position + 1⟩) failure := by
  have hfrom : s.From ⟨[')'] ++ rest, position⟩ := hs
  rcases hfrom.step failure (Scan.heads_closing rest) hrest with ⟨hahead, hcursor, herror⟩
  refine meets_close herror ?_ ?_ ?_
  · intro hnone
    cases hahead.symm.trans hnone
  · intro _ s' _ _ hs'
    rw [hcursor] at hs'
    exact hs'
  · intro token htoken hother
    cases hahead.symm.trans htoken
    exact absurd rfl hother

/-- So does one that is faced. -/
theorem meets_close_of_faces {gap : List Char} {limit openedAt : Nat} {failure : Error → Prop}
    (hgap : IsGap gap) (hrest : Behind limit rest) (hs : s.Faces (gap ++ ')' :: rest)) :
    Meets (close openedAt) s (fun _ s' => s'.Faces rest) failure := by
  obtain ⟨position, hs⟩ := hs.of_gap hgap
  exact (meets_close_of_closing hrest.begins hs).mono (fun _ _ hs' => ⟨_, hs'⟩) fun _ he => he

/-- A prefix operator is taken, and the operand behind it is parsed with what is left of the
budget. -/
theorem meets_operandOver_of_prefix {op : PrefixOp} {symbol : String} {after : Tree → State → Prop}
    {failure : Error → Prop} (hop : PrefixOp.ofSymbol? symbol = some op)
    (hheads : Scan.Heads .operator symbol.toList rest) (hbegins : Begins rest (· ≠ none))
    (hs : s.Faces (symbol.toList ++ rest))
    (hbelow : ∀ s' : State, s'.Faces rest →
      match below with
      | some operand => Meets (.unary op <$> operand) s' after failure
      | none => failure (.positioned .tooManyPrefixes s'.cursor.position 0)) :
    Meets (operandOver setting inside below) s after failure := by
  obtain ⟨position, hs⟩ := hs
  rcases hs.step failure hheads hbegins with ⟨hahead, hcursor, herror⟩
  have hstep : ∀ s' : State, s'.From s.cursor → s'.Faces rest := fun s' hs' => ⟨_, hcursor ▸ hs'⟩
  have hprefixed : s.ahead.bind Token.prefixOp? = some op := by
    rw [hahead]
    simpa [Token.prefixOp?, Token.Kind.textOf] using hop
  refine meets_operandOver ?_ ?_
  · intro hnone
    cases hprefixed.symm.trans hnone
  · intro op' hop'
    cases hprefixed.symm.trans hop'
    refine ⟨herror, ?_⟩
    intro s' hs'
    constructor
    · intro hnone
      exact absurd hnone (hbegins.ahead (hstep s' hs'))
    · intro _
      exact hbelow s' (hstep s' hs')

/-- Behind a prefix operator the parser below reads back the operand. -/
theorem yields_operandOver_of_unary {names : Names} {op : PrefixOp} {symbol : String}
    {gap : List Char}
    (hbelow : ∀ operand, below = some operand → Undoes names size operandLevel operand)
    (hop : PrefixOp.ofSymbol? symbol = some op) (hgap : IsGap gap)
    (h : t.Prints names operandLevel cs) (hrest : Behind operandLevel rest)
    (hsize : cs.length ≤ size) (hs : s.Faces (symbol.toList ++ (gap ++ (cs ++ rest)))) :
    Yields (operandOver setting inside below) s (.unary op t) rest := by
  have hbegins := (h.begins hrest).behind_gap hgap
  have hheads : Scan.Heads .operator symbol.toList (gap ++ (cs ++ rest)) :=
    heads_prefixOp hop (h.head_behind_gap hgap)
  refine meets_operandOver_of_prefix hop hheads hbegins hs ?_
  intro s' hs'
  cases below with
  | none =>
    -- the budget is spent
    exact ⟨_, _, _, rfl, rfl⟩
  | some operand =>
    have hoperand := hbelow operand rfl h hrest hsize (hs'.of_gap hgap)
    refine meets_map (hoperand.mono ?_ fun _ he => he)
    intro t' s'' hyields
    rcases hyields with ⟨rfl, hs''⟩
    exact ⟨rfl, hs''⟩

/-- Between parentheses the parser of expressions reads back the tree. -/
theorem yields_operandOver_of_parens {names : Names} {before behind : List Char} {limit : Nat}
    (hinside : Undoes names size 0 inside) (hbefore : IsGap before) (hbehind : IsGap behind)
    (h : t.Prints names 0 cs) (hrest : Behind limit rest) (hsize : cs.length ≤ size)
    (hs : s.Faces (['('] ++ (before ++ (cs ++ (behind ++ ')' :: rest))))) :
    Yields (operandOver setting inside below) s t rest := by
  have hclosing : Behind 0 (behind ++ ')' :: rest) := .closing hbehind
  have hbegins := (h.begins hclosing).behind_gap hbefore
  refine meets_operandOver_of_heads hs (Scan.heads_opening _) hbegins ?_ ?_ ?_
  · intro hkind
    cases hkind
  · intro _
    decide
  · intro position s' hs'
    refine meets_bind (hinside h hclosing hsize (hs'.of_gap hbefore)) ?_
    intro t' inner hyields
    rcases hyields with ⟨rfl, hinner⟩
    exact meets_bind (meets_close_of_faces hbehind hrest hinner) fun _ outer houter => ⟨rfl, houter⟩

/-- Operands are read back, if the expressions inside them and the operands of their prefix operators
are. -/
theorem undoes_operandOver {names : Names} (hnames : setting.names = names)
    (hinside : Undoes names size 0 inside)
    (hbelow : ∀ operand, below = some operand → Undoes names size operandLevel operand) :
    Undoes names size operandLevel (operandOver setting inside below) := by
  intro t cs rest s hprint hrest hsize hs
  cases hprint with
  | number h => exact meets_operandOver_of_spelled (.number h) hrest hs
  | text h => exact meets_operandOver_of_spelled (.text h) hrest hs
  | bool h => exact meets_operandOver_of_spelled (.bool h) hrest hs
  | reference hlexeme htrue hfalse hconstant hvariable =>
    subst hnames
    exact meets_operandOver_of_variable hlexeme htrue hfalse hconstant hvariable
      hrest.not_continuesName (hrest.begins.mono fun _ hahead => hahead.2) hs
  | unary hop hgap h =>
    simp only [List.length_append] at hsize
    rw [List.append_assoc, List.append_assoc] at hs
    exact yields_operandOver_of_unary hbelow hop hgap h hrest (by omega) hs
  | @binary _ op _ _ _ _ _ hleast =>
    -- no infix operator is written at the level of operands
    have hlt := op.precedence_lt_operandLevel
    omega
  | parens _ hbefore hbehind h =>
    simp only [List.length_append, List.length_cons] at hsize
    exact yields_operandOver_of_parens hinside hbefore hbehind h hrest (by omega) (by simpa using hs)

/-! ## Operators -/

section Climbing

variable {names : Names} {operand : Parser Tree} {right : Nat → Parser Tree} {least : Nat}
  {after : Tree → State → Prop}

/-- One turn of the loop takes an operator of the level, and its right operand is parsed behind it. -/
theorem meets_climb_of_lexeme {op : InfixOp} {symbol : String} {kind : Token.Kind}
    {turns position : Nat} {left : Tree} {failure : Error → Prop}
    (hop : InfixOp.ofSymbol? symbol = some op) (hkind : kind = .operator ∨ kind = .identifier)
    (hheads : Scan.Heads kind symbol.toList rest) (hbegins : Begins rest (· ≠ none))
    (hleast : least ≤ op.precedence) (hs : s.From ⟨symbol.toList ++ rest, position⟩)
    (hright : ∀ s' : State, s'.From ⟨rest, position + symbol.toList.length⟩ →
      Meets (right (op.precedence + 1)) s'
        (fun operand s'' => Meets (climb right least turns (.binary op left operand)) s'' after failure)
        failure) :
    Meets (climb right least (turns + 1) left) s after failure := by
  rcases hs.step failure hheads hbegins with ⟨hahead, hcursor, herror⟩
  have hinfix : s.ahead.bind Token.infixOp? = some op := by
    rw [hahead]
    exact infixOp?_of_ofSymbol? hop hkind
  refine meets_climb_succ ?_ ?_
  · intro hstop
    have hlt := hstop op hinfix
    omega
  · intro op' hop' _
    cases hinfix.symm.trans hop'
    refine ⟨herror, ?_⟩
    intro s' hs'
    rw [hcursor] at hs'
    constructor
    · intro hnone
      exact absurd hnone (hbegins.ahead ⟨_, hs'⟩)
    · intro _
      exact hright s' hs'

/-- So it does where the operator is faced. -/
theorem meets_climb_of_symbol {op : InfixOp} {symbol : String} {kind : Token.Kind} {turns : Nat}
    {left : Tree} {failure : Error → Prop} (hop : InfixOp.ofSymbol? symbol = some op)
    (hkind : kind = .operator ∨ kind = .identifier) (hheads : Scan.Heads kind symbol.toList rest)
    (hbegins : Begins rest (· ≠ none)) (hleast : least ≤ op.precedence)
    (hs : s.Faces (symbol.toList ++ rest))
    (hright : ∀ s' : State, s'.Faces rest →
      Meets (right (op.precedence + 1)) s'
        (fun operand s'' => Meets (climb right least turns (.binary op left operand)) s'' after failure)
        failure) :
    Meets (climb right least (turns + 1) left) s after failure := by
  obtain ⟨position, hs⟩ := hs
  exact meets_climb_of_lexeme hop hkind hheads hbegins hleast hs fun s' hs' => hright s' ⟨_, hs'⟩

/-- What was printed behind the operator is read back as its right operand. -/
theorem meets_climb_of_infix (hright : ∀ level, Undoes names size level (right level))
    {op : InfixOp} {symbol : String} {turns : Nat} {left operand' : Tree} {es : List Char}
    (hop : InfixOp.ofSymbol? symbol = some op) (hleast : least ≤ op.precedence)
    (hprint : operand'.Prints names (op.precedence + 1) es)
    (hrest : Behind (op.precedence + 1) rest) (hsize : es.length ≤ size)
    (hs : s.Faces (' ' :: symbol.toList ++ ' ' :: (es ++ rest)))
    (hafter : ∀ s' : State, s'.Faces rest →
      Meets (climb right least turns (.binary op left operand')) s' after Error.IsLimit) :
    Meets (climb right least (turns + 1) left) s after Error.IsLimit := by
  have hsymbol : s.Faces (symbol.toList ++ ' ' :: (es ++ rest)) := hs.of_gap isGap_space
  have hbegins := (hprint.begins hrest).behind_gap isGap_space
  rcases heads_infix hop (es ++ rest) with ⟨kind, hkind, hheads⟩
  refine meets_climb_of_symbol hop hkind hheads hbegins hleast hsymbol ?_
  intro s' hs'
  refine (hright _ hprint hrest hsize (hs'.of_gap isGap_space)).mono ?_ fun _ he => he
  intro t' s'' hyields
  rcases hyields with ⟨rfl, hs''⟩
  exact hafter s'' hs''

/-- What is printed as an operand is read before the loop, which has all its turns left. -/
theorem meets_climb_of_operand (hoperand : Undoes names size operandLevel operand) {turns : Nat}
    (hprint : t.Prints names operandLevel cs) (hrest : Behind operandLevel rest)
    (hsize : cs.length ≤ size) (hs : s.Faces (cs ++ rest))
    (hafter : ∀ turns' (s' : State), turns ≤ turns' + cs.length → s'.Faces rest →
      Meets (climb right least turns' t) s' after Error.IsLimit) :
    Meets (operand >>= climb right least turns) s after Error.IsLimit := by
  refine meets_bind (hoperand hprint hrest hsize hs) ?_
  intro t' s' hyields
  rcases hyields with ⟨rfl, hs'⟩
  exact hafter turns s' (Nat.le_add_right _ _) hs'

/-- The loop over the operators of a level takes what was printed at that level or a higher one, and
goes on with the turns that are left. -/
theorem meets_climb_of_prints (hoperand : Undoes names size operandLevel operand)
    (hright : ∀ level, Undoes names size level (right level)) {level turns : Nat}
    (hprint : t.Prints names level cs) (hleast : least ≤ level) (hrest : Behind (level + 1) rest)
    (hsize : cs.length ≤ size) (hturns : cs.length ≤ turns) (hs : s.Faces (cs ++ rest))
    (hafter : ∀ turns' (s' : State), turns ≤ turns' + cs.length → s'.Faces rest →
      Meets (climb right least turns' t) s' after Error.IsLimit) :
    Meets (operand >>= climb right least turns) s after Error.IsLimit := by
  -- on the left operands: the loop has read the left one when it comes to the operator
  induction hprint generalizing rest s turns with
  | number h =>
    exact meets_climb_of_operand hoperand (.number h) hrest.operandLevel hsize hs hafter
  | text h => exact meets_climb_of_operand hoperand (.text h) hrest.operandLevel hsize hs hafter
  | bool h => exact meets_climb_of_operand hoperand (.bool h) hrest.operandLevel hsize hs hafter
  | reference hlexeme htrue hfalse hconstant hvariable =>
    exact meets_climb_of_operand hoperand (.reference hlexeme htrue hfalse hconstant hvariable)
      hrest.operandLevel hsize hs hafter
  | unary hop hgap h _ =>
    exact meets_climb_of_operand hoperand (.unary hop hgap h) hrest.operandLevel hsize hs hafter
  | @parens _ op _ _ _ _ _ _ hbefore hbehind h _ =>
    have hprint := Tree.Prints.parens op.precedence_lt_operandLevel hbefore hbehind h
    exact meets_climb_of_operand hoperand hprint hrest.operandLevel hsize hs hafter
  | @binary level op symbol left right' ds es hlevel hop hleft hright' ihleft _ =>
    simp only [List.length_append, List.length_cons] at hsize hturns hafter
    have hbehind : Behind (op.precedence + 1) (' ' :: symbol.toList ++ ' ' :: (es ++ rest)) :=
      .operator hop (Nat.lt_succ_self _)
    have hrest' : Behind (op.precedence + 1) rest := hrest.mono fun _ hlt => by omega
    refine ihleft (by omega) hbehind (by omega) (by omega) (by simpa using hs) ?_
    intro turns' s' hturns' hs'
    -- the characters of the operator leave a turn for it
    obtain ⟨turns', rfl⟩ : ∃ k, turns' = k + 1 := ⟨turns' - 1, by omega⟩
    refine meets_climb_of_infix hright hop (by omega) hright' hrest' (by omega) hs' ?_
    intro s'' hs''
    exact hafter turns' s'' (by omega) hs''

/-- The loop stops before what follows a whole expression of its level. -/
theorem meets_climb_of_behind {turns : Nat} {failure : Error → Prop} (hrest : Behind least rest)
    (hs : s.Faces rest) (hafter : after t s) :
    Meets (climb right least turns t) s after failure := by
  cases turns with
  | zero => exact meets_pure hafter
  | succ turns =>
    have hahead := (hrest.begins.ahead hs).1
    refine meets_climb_succ (fun _ => hafter) ?_
    intro op hop hle
    exact absurd (hahead op hop) (by omega)

end Climbing

/-! ## The budget -/

/-- Within any budget, operands and expressions are read back as they were printed. -/
theorem undoes_stage (n : Nat) :
    Undoes setting.names setting.turns operandLevel (stage setting n).operand ∧
      ∀ least, Undoes setting.names setting.turns least ((stage setting n).expression least) := by
  apply stage_induction
  · -- a spent budget fails with a limit
    intro least t cs rest s _ _ _ _
    exact ⟨_, _, _, rfl, rfl⟩
  · intro inside below hinside hbelow
    exact undoes_operandOver rfl hinside hbelow
  · intro operand right least hoperand hright t cs rest s hprint hrest hsize hs
    have hrest' : Behind (least + 1) rest := hrest.mono fun _ hlt => by omega
    refine meets_climb_of_prints hoperand hright hprint (Nat.le_refl least) hrest' hsize hsize hs ?_
    intro turns' s' _ hs'
    exact meets_climb_of_behind hrest hs' ⟨rfl, hs'⟩

end Parser

/-! ## Whole texts -/

/-- A text that begins with a token is parsed as an expression from there, if nothing is left behind
it. -/
theorem Parser.parse_meets_of_begins {names : Names} {depth : Nat} {text : String}
    {P : Option Token → Prop} {holds : Tree → Prop} {failure : Error → Prop}
    (hbegins : Begins text.toList P)
    (h : ∀ s : State, s.Faces text.toList →
      Meets ((stage ⟨names, depth, text.length + 1⟩ (nestingLimit - depth)).expression 0) s
        (fun tree s' => holds tree ∧ s'.ahead = none) failure) :
    Ends (names.parse depth text) holds failure := by
  refine parse_meets ?_ ?_
  · intro e cursor hnext
    rcases hbegins 0 with ⟨token, cursor', hnext', _⟩
    cases hnext.symm.trans hnext'
  · intro s hs
    refine meets_whole ((h s ⟨0, hs⟩).mono ?_ fun _ he => he)
    rintro tree s' ⟨htree, hend⟩
    refine ⟨fun _ => htree, ?_⟩
    intro token hahead
    cases hend.symm.trans hahead

/-- The message of a limit. -/
theorem Fault.message_of_isLimit {fault : Fault} (h : fault.isLimit = true) :
    ∃ details, fault.message = "Expression too complex" ++ details := by
  cases fault with
  | tooDeep levels =>
    refine ⟨": exceeded maximum nesting depth of " ++ toString levels, ?_⟩
    rw [← String.append_assoc]
    rfl
  | tooManyPrefixes => exact ⟨": too many prefix operators", rfl⟩
  | tooManyGroups levels =>
    refine ⟨": exceeded maximum of " ++ toString levels ++ " nested arrays or calls", ?_⟩
    rw [← String.append_assoc, ← String.append_assoc]
    rfl
  | _ => cases h

/-- A text printed from a tree is parsed into that tree, unless a limit on the nesting is exceeded. -/
theorem Scope.parse_of_prints {scope : Scope} {tree : Tree} {text : String}
    (h : tree.Prints (scope.registry.names scope.mode) 0 text.toList) :
    scope.parse text = .ok tree ∨
      ∃ fault offset length details, scope.parse text = .error (.positioned fault offset length) ∧
        fault.message = "Expression too complex" ++ details := by
  have hdone : Behind 0 [] := .done
  have hparse : Ends (scope.parse text) (· = tree) Error.IsLimit := by
    refine parse_meets ?_ ?_
    · intro e cursor hnext
      rcases h.begins hdone 0 with ⟨token, cursor', hnext', _⟩
      rw [List.append_nil] at hnext'
      cases hnext.symm.trans hnext'
    · intro s hs
      have hfaces : s.Faces (text.toList ++ []) := by
        rw [List.append_nil]
        exact ⟨0, hs⟩
      have hsize : text.toList.length ≤ text.length + 1 := by
        rw [String.length_toList]
        exact Nat.le_succ _
      refine meets_whole (((undoes_stage _).2 0 h hdone hsize hfaces).mono ?_ fun _ he => he)
      intro tree' s' hyields
      rcases hyields with ⟨rfl, position, hs'⟩
      -- the state that faces an empty text has no token ahead
      rw [State.From, Cursor.next_of_blank (by simp)] at hs'
      refine ⟨fun _ => rfl, ?_⟩
      intro token hahead
      simp [hahead] at hs'
  cases hrun : scope.parse text with
  | ok parsed =>
    rw [hrun] at hparse
    exact Or.inl (congrArg Except.ok hparse)
  | error e =>
    rw [hrun] at hparse
    rcases hparse with ⟨fault, offset, length, rfl, hlimit⟩
    rcases Fault.message_of_isLimit hlimit with ⟨details, hmessage⟩
    exact Or.inr ⟨fault, offset, length, details, rfl, hmessage⟩

/-- The tree of `(Paid Or 1.50 = -2) AND TRUE`. -/
def settledTree : Tree :=
  .binary .and
    (.binary .or (.reference "Paid")
      (.binary .eq (.literal (.number (Decimal.nearest false 150 (-2))))
        (.unary .negate (.literal (.number (Decimal.nearest false 2 0))))))
    (.literal (.bool true))

/-- A scope with one variable. -/
def paidScope : Scope where
  registry := { variableNames := ["paid"] }

theorem Scope.parse_of_prints_settled :
    settledTree.Prints (paidScope.registry.names paidScope.mode) 0
        "(Paid Or 1.50 = -2) AND TRUE".toList ∧
      paidScope.parse "(Paid Or 1.50 = -2) AND TRUE" = .ok settledTree := by
  let names := paidScope.registry.names paidScope.mode
  have hpaid : (Tree.reference "Paid").Prints names 1 "Paid".toList := by
    have hfits : Token.Kind.identifier.Fits "Paid".toList :=
      ⟨'P', ['a', 'i', 'd'], by decide, by decide, forall_mem_of_all (by decide)⟩
    exact .reference hfits (by decide) (by decide) (by decide) (by decide)
  have hnumber : (Tree.literal (.number (Decimal.nearest false 150 (-2)))).Prints names 6
      "1.50".toList := .number rfl
  have hnegated : (Tree.unary .negate (.literal (.number (Decimal.nearest false 2 0)))).Prints names
      7 ("-".toList ++ [] ++ ['2']) := .unary (by decide) (Or.inl rfl) (.number rfl)
  have hinside : (Tree.binary .or (.reference "Paid") (.binary .eq _ _)).Prints names 0
      ("Paid".toList ++ ' ' :: "Or".toList ++ ' ' ::
        ("1.50".toList ++ ' ' :: "=".toList ++ ' ' :: ("-".toList ++ [] ++ ['2']))) :=
    .binary (by decide) (by decide) hpaid (.binary (by decide) (by decide) hnumber hnegated)
  have htrue : (Tree.literal (.bool true)).Prints names 3 "TRUE".toList := .bool (by decide)
  have hgroup := @Tree.Prints.parens names 2 _ _ _ [] _ [] (by decide) (Or.inl rfl) (Or.inl rfl)
    hinside
  have hprints : settledTree.Prints names 0 "(Paid Or 1.50 = -2) AND TRUE".toList :=
    @Tree.Prints.binary names 0 .and "AND" _ _ _ _ (by decide) (by decide) hgroup htrue
  refine ⟨hprints, ?_⟩
  rcases Scope.parse_of_prints hprints with hparsed | ⟨fault, offset, length, details, hfailed, -⟩
  · exact hparsed
  · -- no limit is met on the way
    have hdone : (paidScope.parse "(Paid Or 1.50 = -2) AND TRUE").isOk = true := by decide +kernel
    rw [hfailed] at hdone
    cases hdone

end Formula
