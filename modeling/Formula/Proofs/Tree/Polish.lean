import Formula.Proofs.Decimal.Layout
import Formula.Proofs.Tree.Printing

/-! # Trees read off their Polish rendering

With every operator before its operands a rendering needs no levels: it can be read from left to right
in one way only. A word ends at the first space or parenthesis, a text at its second quote, and an
operator at the first space, whatever it is written with; one operand or two is settled by what stands
behind the first. So a text that begins with the rendering of a tree determines the tree and the rest.
Arrays and calls do not show what they hold and are left out.
-/

namespace Formula

/-! ## Runs -/

/-- Two texts that begin with a run of the same kind, each up to its end, have the same run and the
same rest. -/
theorem append_inj_of_run {p : Char → Bool} {cs ds r s : List Char} (hcs : ∀ c ∈ cs, p c = true)
    (hds : ∀ c ∈ ds, p c = true) (hr : ∀ c ∈ r.head?, p c = false) (hs : ∀ c ∈ s.head?, p c = false)
    (h : cs ++ r = ds ++ s) : cs = ds ∧ r = s := by
  have hrun : cs = ds := by
    have htake := congrArg (List.takeWhile p) h
    rwa [takeWhile_of_run hcs hr, takeWhile_of_run hds hs] at htake
  subst hrun
  exact ⟨rfl, List.append_cancel_left h⟩

/-- A run that is ended by a character it does not hold. -/
theorem append_inj_of_end {ending : Char} {cs ds r s : List Char} (hcs : ending ∉ cs)
    (hds : ending ∉ ds) (h : cs ++ ending :: r = ds ++ ending :: s) : cs = ds ∧ r = s := by
  have hrun (run : List Char) (hrun : ending ∉ run) : ∀ c ∈ run, decide (c ≠ ending) = true := by
    intro c hc
    rw [decide_eq_true_eq]
    rintro rfl
    exact hrun hc
  obtain ⟨hrun, hrest⟩ := append_inj_of_run (hrun cs hcs) (hrun ds hds) (by simp) (by simp) h
  exact ⟨hrun, (List.cons.inj hrest).2⟩

theorem PrefixOp.symbol_injective : Function.Injective PrefixOp.symbol := by
  intro op op' h
  have hread := congrArg PrefixOp.ofSymbol? h
  rwa [ofSymbol?_symbol, ofSymbol?_symbol, Option.some.injEq] at hread

theorem InfixOp.symbol_injective : Function.Injective InfixOp.symbol := by
  intro op op' h
  have hread := congrArg InfixOp.ofSymbol? h
  rwa [ofSymbol?_symbol, ofSymbol?_symbol, Option.some.injEq] at hread

theorem PrefixOp.space_notMem_symbol (op : PrefixOp) : ' ' ∉ op.symbol.toList := by
  cases op <;> decide

theorem InfixOp.space_notMem_symbol (op : InfixOp) : ' ' ∉ op.symbol.toList := by
  cases op <;> decide

namespace Tree

/-! ## Trees without raw text -/

/-- The numbers in a tree. -/
def numbers : Tree → List Float
  | .literal (.number x) => [x]
  | .literal _ | .reference _ | .array _ | .call _ _ => []
  | .unary _ operand => operand.numbers
  | .binary _ left right => left.numbers ++ right.numbers

/-- The trees that are rendered as one word. A name that is the rendering of a truth value is none. -/
inductive IsWord : Tree → Prop where
  | number {x : Float} (h : Number.isFinite x = true) : IsWord (.literal (.number x))
  | bool (b : Bool) : IsWord (.literal (.bool b))
  | reference {name : String} (hlexeme : Token.Kind.identifier.Fits name.toList)
      (htrue : name ≠ "true") (hfalse : name ≠ "false") : IsWord (.reference name)

/-- The trees that show all they hold: words, texts without quotes, and operators on such trees. -/
inductive Shown : Tree → Prop where
  | word {t : Tree} (h : t.IsWord) : Shown t
  | text {s : String} (h : quote ∉ s.toList) : Shown (.literal (.text s))
  | unary (op : PrefixOp) {operand : Tree} (h : Shown operand) : Shown (.unary op operand)
  | binary (op : InfixOp) {left right : Tree} (hleft : Shown left) (hright : Shown right) :
      Shown (.binary op left right)

/-! ## Words -/

/-- A character of words. -/
def inWord (c : Char) : Bool :=
  c ≠ ' ' && c ≠ ')'

theorem inWord_of_ne {c : Char} (hspace : c ≠ ' ') (hclosing : c ≠ ')') : inWord c = true := by
  simp [inWord, hspace, hclosing]

theorem inWord_of_isNumeric {c : Char} (h : Scan.IsNumeric c) : inWord c = true := by
  refine inWord_of_ne ?_ ?_
  · rintro rfl
    exact absurd h (by simp [Scan.IsNumeric, Decimal.isDigit])
  · rintro rfl
    exact absurd h (by simp [Scan.IsNumeric, Decimal.isDigit])

theorem inWord_of_continuesName {c : Char} (h : Text.continuesName c = true) : inWord c = true := by
  refine inWord_of_ne ?_ ?_
  · rintro rfl
    exact absurd h (by decide)
  · rintro rfl
    exact absurd h (by decide)

/-- A finite number begins with a minus or a digit, and is a word. -/
theorem display_number {x : Float} (h : Number.isFinite x = true) :
    ∃ c cs, (Value.number x).display.toList = c :: cs ∧ (c = '-' ∨ Decimal.isDigit c = true) ∧
      ∀ d ∈ c :: cs, inWord d = true := by
  obtain ⟨negative, cs, hnumeral, hwrite⟩ :=
    @Decimal.Layout.write_of_isFinite Value.numberLayout (by simp [Value.numberLayout]) x h
  have hall : ∀ d ∈ cs, inWord d = true := fun d hd => inWord_of_isNumeric (hnumeral.all d hd)
  rw [Value.display, hwrite]
  cases negative with
  | true => exact ⟨'-', cs, rfl, .inl rfl, List.forall_mem_cons.mpr ⟨by decide, hall⟩⟩
  | false =>
    obtain ⟨c, rest, rfl, hdigit⟩ := hnumeral.head
    exact ⟨c, rest, rfl, .inr hdigit, hall⟩

namespace IsWord

variable {t u : Tree}

theorem inWord_of_mem (h : t.IsWord) : ∀ c ∈ t.polish.toList, inWord c = true := by
  cases h with
  | number h =>
    obtain ⟨c, cs, hchars, -, hall⟩ := display_number h
    exact hchars ▸ hall
  | bool b =>
    cases b with
    | true => exact forall_mem_of_all (by decide)
    | false => exact forall_mem_of_all (by decide)
  | reference hlexeme _ _ =>
    obtain ⟨c, cs, hchars, hstart, hcontinue⟩ := hlexeme
    rw [polish, hchars]
    exact List.forall_mem_cons.mpr
      ⟨inWord_of_continuesName (Text.continuesName_of_startsName hstart),
        fun d hd => inWord_of_continuesName (hcontinue d hd)⟩

/-- A word begins neither as an operator in parentheses nor as a text. -/
theorem head (h : t.IsWord) : ∃ c cs, t.polish.toList = c :: cs ∧ c ≠ '(' ∧ c ≠ quote := by
  cases h with
  | number h =>
    obtain ⟨c, cs, hchars, hc, -⟩ := display_number h
    refine ⟨c, cs, hchars, ?_⟩
    rcases hc with rfl | hdigit
    · decide
    · constructor
      · rintro rfl
        exact absurd hdigit (by decide)
      · rintro rfl
        exact absurd hdigit (by decide)
  | bool b =>
    cases b with
    | true => exact ⟨'t', "rue".toList, rfl, by decide⟩
    | false => exact ⟨'f', "alse".toList, rfl, by decide⟩
  | reference hlexeme _ _ =>
    obtain ⟨c, cs, hchars, hstart, -⟩ := hlexeme
    refine ⟨c, cs, hchars, ?_, ?_⟩
    · rintro rfl
      exact absurd hstart (by decide)
    · rintro rfl
      exact absurd hstart (by decide)

/-- No name is the rendering of a number. -/
theorem display_number_ne {x : Float} {name : String} (hx : Number.isFinite x = true)
    (hname : Token.Kind.identifier.Fits name.toList) : (Value.number x).display ≠ name := by
  intro h
  obtain ⟨c, cs, hchars, hc, -⟩ := display_number hx
  obtain ⟨d, ds, hlexeme, hstart, -⟩ := hname
  rw [h, hlexeme] at hchars
  cases hchars
  rcases hc with rfl | hdigit
  · exact absurd hstart (by decide)
  · rw [Text.isDigit_eq_false_of_startsName hstart] at hdigit
    cases hdigit

/-- No truth value is the rendering of a number: its rendering could be a name. -/
theorem display_number_ne_bool {x : Float} (hx : Number.isFinite x = true) (b : Bool) :
    (Value.number x).display ≠ (Value.bool b).display := by
  refine display_number_ne hx ?_
  cases b with
  | true => exact ⟨'t', "rue".toList, rfl, by decide, forall_mem_of_all (by decide)⟩
  | false => exact ⟨'f', "alse".toList, rfl, by decide, forall_mem_of_all (by decide)⟩

theorem display_bool_inj : ∀ a b : Bool, (Value.bool a).display = (Value.bool b).display → a = b := by
  decide

/-- A word stands for one tree. -/
theorem polish_inj (ht : t.IsWord) (hu : u.IsWord)
    (hnumbers : ∀ x ∈ t.numbers, ∀ y ∈ u.numbers,
      (Value.number x).display = (Value.number y).display → x = y)
    (h : t.polish = u.polish) : t = u := by
  cases ht with
  | @number x hx =>
    cases hu with
    | @number y hy =>
      rw [hnumbers x (List.mem_singleton_self x) y (List.mem_singleton_self y) h]
    | bool b => exact absurd h (display_number_ne_bool hx b)
    | reference hlexeme _ _ => exact absurd h (display_number_ne hx hlexeme)
  | bool a =>
    cases hu with
    | number hy => exact absurd h.symm (display_number_ne_bool hy a)
    | bool b => rw [display_bool_inj a b h]
    | reference _ htrue hfalse =>
      cases a with
      | true => exact absurd h.symm htrue
      | false => exact absurd h.symm hfalse
  | reference hlexeme htrue hfalse =>
    cases hu with
    | number hy => exact absurd h.symm (display_number_ne hy hlexeme)
    | bool b =>
      cases b with
      | true => exact absurd h htrue
      | false => exact absurd h hfalse
    | reference _ _ _ => exact congrArg Tree.reference h

/-- A word begins as neither of the other renderings does. -/
theorem append_ne (h : t.IsWord) {c : Char} (hc : c = '(' ∨ c = quote) (r cs : List Char) :
    t.polish.toList ++ r ≠ c :: cs := by
  obtain ⟨d, ds, hchars, hparen, hquote⟩ := h.head
  rw [hchars, List.cons_append]
  intro heq
  obtain rfl : d = c := (List.cons.inj heq).1
  rcases hc with rfl | rfl
  · exact hparen rfl
  · exact hquote rfl

end IsWord

/-! ## Operators -/

theorem polish_text (s : String) (r : List Char) :
    (literal (.text s)).polish.toList ++ r = quote :: (s.toList ++ quote :: r) := by
  simp [polish, quote]

theorem polish_unary (op : PrefixOp) (operand : Tree) (r : List Char) :
    (unary op operand).polish.toList ++ r =
      '(' :: (op.symbol.toList ++ ' ' :: (operand.polish.toList ++ ')' :: r)) := by
  simp [polish]

theorem polish_binary (op : InfixOp) (left right : Tree) (r : List Char) :
    (binary op left right).polish.toList ++ r =
      '(' :: (op.symbol.toList ++
        ' ' :: (left.polish.toList ++ ' ' :: (right.polish.toList ++ ')' :: r))) := by
  simp [polish]

/-! ## Unique reading -/

/-- What may stand behind a rendering: nothing, a space or a closing parenthesis. -/
def Ends (r : List Char) : Prop :=
  ∀ c ∈ r.head?, inWord c = false

theorem ends_nil : Ends [] := fun _ h => by cases h

theorem ends_space (cs : List Char) : Ends (' ' :: cs) := by
  simp [Ends, inWord]

theorem ends_closing (cs : List Char) : Ends (')' :: cs) := by
  simp [Ends, inWord]

variable {t u : Tree} {r s : List Char}

/-- Texts that begin with the renderings of two trees are equal only if the trees are, and what stands
behind them. -/
theorem eq_of_polish_append_eq (ht : t.Shown) (hu : u.Shown)
    (hnumbers : ∀ x ∈ t.numbers, ∀ y ∈ u.numbers,
      (Value.number x).display = (Value.number y).display → x = y)
    (hr : Ends r) (hs : Ends s) (h : t.polish.toList ++ r = u.polish.toList ++ s) : t = u ∧ r = s := by
  induction ht generalizing u r s with
  | word ht =>
    cases hu with
    | word hu =>
      obtain ⟨hchars, hrest⟩ := append_inj_of_run ht.inWord_of_mem hu.inWord_of_mem hr hs h
      exact ⟨ht.polish_inj hu hnumbers (String.toList_injective hchars), hrest⟩
    | text _ => exact absurd (h.trans (polish_text _ s)) (ht.append_ne (.inr rfl) _ _)
    | unary op' _ => exact absurd (h.trans (polish_unary op' _ s)) (ht.append_ne (.inl rfl) _ _)
    | binary op' _ _ => exact absurd (h.trans (polish_binary op' _ _ s)) (ht.append_ne (.inl rfl) _ _)
  | @text string hquote =>
    rw [polish_text] at h
    cases hu with
    | word hu => exact absurd h.symm (hu.append_ne (.inr rfl) _ _)
    | @text string' hquote' =>
      rw [polish_text] at h
      obtain ⟨hchars, hrest⟩ := append_inj_of_end hquote hquote' (List.cons.inj h).2
      rw [String.toList_injective hchars]
      exact ⟨rfl, hrest⟩
    | unary op' _ =>
      rw [polish_unary] at h
      exact absurd (List.cons.inj h).1 (by decide)
    | binary op' _ _ =>
      rw [polish_binary] at h
      exact absurd (List.cons.inj h).1 (by decide)
  | @unary op operand _ ih =>
    rw [polish_unary] at h
    cases hu with
    | word hu => exact absurd h.symm (hu.append_ne (.inl rfl) _ _)
    | text _ =>
      rw [polish_text] at h
      exact absurd (List.cons.inj h).1 (by decide)
    | @unary op' operand' hoperand' =>
      rw [polish_unary] at h
      obtain ⟨hsymbol, h⟩ := append_inj_of_end op.space_notMem_symbol op'.space_notMem_symbol
        (List.cons.inj h).2
      obtain ⟨rfl, hrest⟩ := ih hoperand' hnumbers (ends_closing r) (ends_closing s) h
      rw [PrefixOp.symbol_injective (String.toList_injective hsymbol)]
      exact ⟨rfl, (List.cons.inj hrest).2⟩
    | @binary op' left' right' hleft' _ =>
      -- behind the first operand one tree ends and the other goes on
      rw [polish_binary] at h
      obtain ⟨-, h⟩ := append_inj_of_end op.space_notMem_symbol op'.space_notMem_symbol
        (List.cons.inj h).2
      obtain ⟨-, hrest⟩ := ih hleft'
        (fun x hx y hy => hnumbers x hx y (List.mem_append_left _ hy)) (ends_closing r) (ends_space _) h
      exact absurd (List.cons.inj hrest).1 (by decide)
  | @binary op left right _ _ ihleft ihright =>
    rw [polish_binary] at h
    cases hu with
    | word hu => exact absurd h.symm (hu.append_ne (.inl rfl) _ _)
    | text _ =>
      rw [polish_text] at h
      exact absurd (List.cons.inj h).1 (by decide)
    | @unary op' operand' hoperand' =>
      rw [polish_unary] at h
      obtain ⟨-, h⟩ := append_inj_of_end op.space_notMem_symbol op'.space_notMem_symbol
        (List.cons.inj h).2
      obtain ⟨-, hrest⟩ := ihleft hoperand'
        (fun x hx y hy => hnumbers x (List.mem_append_left _ hx) y hy) (ends_space _) (ends_closing s) h
      exact absurd (List.cons.inj hrest).1 (by decide)
    | @binary op' left' right' hleft' hright' =>
      rw [polish_binary] at h
      obtain ⟨hsymbol, h⟩ := append_inj_of_end op.space_notMem_symbol op'.space_notMem_symbol
        (List.cons.inj h).2
      obtain ⟨rfl, hbehind⟩ := ihleft hleft'
        (fun x hx y hy => hnumbers x (List.mem_append_left _ hx) y (List.mem_append_left _ hy))
        (ends_space _) (ends_space _) h
      obtain ⟨rfl, hrest⟩ := ihright hright'
        (fun x hx y hy => hnumbers x (List.mem_append_right _ hx) y (List.mem_append_right _ hy))
        (ends_closing r) (ends_closing s) (List.cons.inj hbehind).2
      rw [InfixOp.symbol_injective (String.toList_injective hsymbol)]
      exact ⟨rfl, (List.cons.inj hrest).2⟩

/-- Trees that show all they hold are rendered alike only if they are equal, as long as their numbers
are told apart by their texts. -/
theorem polish_eq_iff (ht : t.Shown) (hu : u.Shown)
    (hnumbers : ∀ x ∈ t.numbers, ∀ y ∈ u.numbers,
      (Value.number x).display = (Value.number y).display → x = y) :
    t.polish = u.polish ↔ t = u := by
  constructor
  · intro h
    exact (eq_of_polish_append_eq ht hu hnumbers ends_nil ends_nil (by rw [h])).1
  · rintro rfl
    rfl

/-- A difference of which the first operand is negated, `(- (- and) 0.1)`. -/
def negatedFirst : Tree :=
  .binary .sub (.unary .negate (.reference "and")) (.literal (.number (Number.ofRatio false 1 10)))

/-- A difference that is negated, `(- (- and 0.1))`. -/
def negatedWhole : Tree :=
  .unary .negate (.binary .sub (.reference "and") (.literal (.number (Number.ofRatio false 1 10))))

theorem polish_eq_iff_negated :
    negatedFirst.Shown ∧ negatedWhole.Shown ∧ negatedFirst.polish ≠ negatedWhole.polish := by
  have hname : (reference "and").Shown :=
    .word (.reference ⟨'a', ['n', 'd'], rfl, by decide, forall_mem_of_all (by decide)⟩ (by decide)
      (by decide))
  have hnumber : (literal (.number (Number.ofRatio false 1 10))).Shown :=
    .word (.number (by decide +kernel))
  have hfirst : negatedFirst.Shown := .binary .sub (.unary .negate hname) hnumber
  have hwhole : negatedWhole.Shown := .unary .negate (.binary .sub hname hnumber)
  have hiff := polish_eq_iff hfirst hwhole (by decide +kernel)
  exact ⟨hfirst, hwhole, fun h => absurd (hiff.mp h) (by simp [negatedFirst, negatedWhole])⟩

end Tree

end Formula
