import Formula.Registry
import Formula.Tree
import Formula.Proofs.Token.Lexeme

/-! # Printing trees

`Tree.Prints` says how a tree is written with no more parentheses than needed. The level at which it
is written is the precedence an infix operator must have to stand there without parentheses.
-/

namespace Formula

/-! ## Printing -/

/-- The level of operands, above the precedence of every infix operator. -/
def operandLevel : Nat := 11

/-- A single space or none. -/
def IsGap (gap : List Char) : Prop :=
  gap = [] ∨ gap = [' ']

theorem isGap_space : IsGap [' '] := Or.inr rfl

theorem IsGap.blank {gap : List Char} (h : IsGap gap) : ∀ d ∈ gap, Text.isBlank d = true := by
  intro d hd
  rcases h with rfl | rfl
  · cases hd
  · rw [List.mem_singleton.mp hd]
    decide

/-- The ways of writing a tree where operators must have the precedence `least`. An operator may be
spelled in any of its ways; a single space stands on either side of an infix operator, and spaces are
optional behind a prefix operator and inside parentheses. -/
inductive Tree.Prints (names : Names) : (least : Nat) → Tree → List Char → Prop where
  | number {least : Nat} {value : Float} {lexeme : List Char}
      (h : Decimal.read? false lexeme = some value) :
      Prints names least (.literal (.number value)) lexeme
  | text {least : Nat} {s : String} (h : quote ∉ s.toList) :
      Prints names least (.literal (.text s)) (quote :: s.toList ++ [quote])
  | bool {least : Nat} {b : Bool} {word : String}
      (h : Text.sameFolded word (if b then "true" else "false") = true) :
      Prints names least (.literal (.bool b)) word.toList
  | reference {least : Nat} {name : String} (hlexeme : Token.Kind.identifier.Fits name.toList)
      (htrue : Text.sameFolded name "true" = false) (hfalse : Text.sameFolded name "false" = false)
      (hconstant : names.constant? name = none) (hvariable : names.isVariable name = true) :
      Prints names least (.reference name) name.toList
  | unary {least : Nat} {op : PrefixOp} {symbol : String} {gap : List Char} {operand : Tree}
      {cs : List Char} (hop : PrefixOp.ofSymbol? symbol = some op) (hgap : IsGap gap)
      (h : Prints names operandLevel operand cs) :
      Prints names least (.unary op operand) (symbol.toList ++ gap ++ cs)
  | binary {least : Nat} {op : InfixOp} {symbol : String} {left right : Tree} {cs ds : List Char}
      (hleast : least ≤ op.precedence) (hop : InfixOp.ofSymbol? symbol = some op)
      (hleft : Prints names op.precedence left cs)
      (hright : Prints names (op.precedence + 1) right ds) :
      Prints names least (.binary op left right) (cs ++ ' ' :: symbol.toList ++ ' ' :: ds)
  /-- An operator that binds too loosely for its place. -/
  | parens {least : Nat} {op : InfixOp} {left right : Tree} {before cs behind : List Char}
      (hleast : op.precedence < least) (hbefore : IsGap before) (hbehind : IsGap behind)
      (h : Prints names 0 (.binary op left right) cs) :
      Prints names least (.binary op left right) ('(' :: before ++ cs ++ behind ++ [')'])

/-- A truth value is written as a name. -/
theorem fits_of_truth {b : Bool} {word : String}
    (h : Text.sameFolded word (if b then "true" else "false") = true) :
    Token.Kind.identifier.Fits word.toList := by
  rw [Text.sameFolded_comm] at h
  cases b with
  | false => exact fits_of_sameFolded (by decide) (by decide) h
  | true => exact fits_of_sameFolded (by decide) (by decide) h

/-- The values that are written as one token, and how. -/
inductive Value.Spelled : Value → List Char → Prop where
  | number {x : Float} {lexeme : List Char} (h : Decimal.read? false lexeme = some x) :
      Spelled (.number x) lexeme
  | text {s : String} (h : quote ∉ s.toList) : Spelled (.text s) (quote :: s.toList ++ [quote])
  | bool {b : Bool} {word : String}
      (h : Text.sameFolded word (if b then "true" else "false") = true) :
      Spelled (.bool b) word.toList

theorem Value.Spelled.prints {names : Names} {least : Nat} {value : Value} {cs : List Char}
    (h : value.Spelled cs) : Tree.Prints names least (.literal value) cs := by
  cases h with
  | number h => exact .number h
  | text h => exact .text h
  | bool h => exact .bool h

theorem InfixOp.precedence_lt_operandLevel (op : InfixOp) : op.precedence < operandLevel := by
  cases op <;> decide

namespace Tree.Prints

variable {names : Names} {least : Nat} {t : Tree} {cs rest : List Char}

/-- No name begins with the second character of an operator. -/
theorem head_of_fits {lexeme : List Char} (h : Token.Kind.identifier.Fits lexeme) :
    ∃ c others, lexeme = c :: others ∧ c ≠ '=' := by
  rcases h with ⟨c, others, heq, hname, _⟩
  refine ⟨c, others, heq, ?_⟩
  rintro rfl
  exact absurd hname (by decide)

/-- What is printed begins with something that makes no operator with a prefix operator before it. -/
theorem head (h : t.Prints names least cs) : ∃ c others, cs = c :: others ∧ c ≠ '=' := by
  induction h with
  | @number _ _ lexeme h =>
    cases lexeme with
    | nil => cases h
    | cons c others =>
      refine ⟨c, others, rfl, ?_⟩
      rintro rfl
      rcases (Scan.beginsNumber_of_read? h).head with hdigit | hdot
      · exact absurd hdigit (by decide)
      · exact absurd hdot (by decide)
  | text h => exact ⟨quote, _, rfl, by decide⟩
  | bool h => exact head_of_fits (fits_of_truth h)
  | reference hlexeme _ _ _ _ => exact head_of_fits hlexeme
  | unary hop _ _ _ =>
    rcases PrefixOp.char_of_ofSymbol? hop with ⟨c, hc, heq⟩
    refine ⟨c, [] ++ _ ++ _, by rw [heq]; rfl, ?_⟩
    rintro rfl
    exact absurd hc (by decide)
  | binary _ _ _ _ ihleft _ =>
    rcases ihleft with ⟨c, others, rfl, hc⟩
    exact ⟨c, _, rfl, hc⟩
  | parens _ _ _ _ _ => exact ⟨'(', _, rfl, by decide⟩

end Tree.Prints

/-! ## What may follow -/

/-- What stands behind an expression whose operators bind at least as tightly as `limit`: nothing, a
closing parenthesis, or an operator that binds more loosely. -/
inductive Behind (limit : Nat) : List Char → Prop where
  | done : Behind limit []
  | closing {gap rest : List Char} (hgap : IsGap gap) : Behind limit (gap ++ ')' :: rest)
  | operator {op : InfixOp} {symbol : String} {rest : List Char}
      (hop : InfixOp.ofSymbol? symbol = some op) (hlimit : op.precedence < limit) :
      Behind limit (' ' :: symbol.toList ++ ' ' :: rest)

namespace Behind

variable {limit : Nat} {rest : List Char}

theorem mono {limit' : Nat} (h : Behind limit rest)
    (hlimit : ∀ op : InfixOp, op.precedence < limit → op.precedence < limit') :
    Behind limit' rest := by
  cases h with
  | done => exact .done
  | closing hgap => exact .closing hgap
  | operator hop hlt => exact .operator hop (hlimit _ hlt)

theorem operandLevel (h : Behind limit rest) : Behind Formula.operandLevel rest :=
  h.mono fun op _ => op.precedence_lt_operandLevel

/-- What follows an expression ends every lexeme before it. -/
theorem head (h : Behind limit rest) : ∀ c ∈ rest.head?, c = ' ' ∨ c = ')' := by
  cases h with
  | done => simp
  | closing hgap =>
    rcases hgap with rfl | rfl
    · simp
    · simp
  | operator hop hlt => simp

theorem not_isNumeric (h : Behind limit rest) : ∀ c ∈ rest.head?, ¬ Scan.IsNumeric c := by
  intro c hc
  rcases h.head c hc with rfl | rfl
  · unfold Scan.IsNumeric
    decide
  · unfold Scan.IsNumeric
    decide

theorem not_continuesName (h : Behind limit rest) :
    ∀ c ∈ rest.head?, Text.continuesName c = false := by
  intro c hc
  rcases h.head c hc with rfl | rfl
  · decide
  · decide

end Behind

end Formula
