import Formula.Proofs.Token.Front
import Formula.Proofs.Tree.Reparsing

/-! # Chains of operators

Without brackets a text is a chain: operands with infix operators between them, where an operand is a
literal or a variable behind any number of prefix operators. Every chain is parsed, and the tree keeps
the order of what stands in the text. The operator on its left side binds at least as tightly as one
above it, and the operator on its right side tighter. A right operand is parsed at a higher level than
the operator before it, so that the levels of the budget a chain takes do not grow with its length.
-/

namespace Formula

/-! ## Chains -/

/-- What a chain is made of. -/
inductive Item where
  | prefixOp (op : PrefixOp)
  | infixOp (op : InfixOp)
  | leaf (tree : Tree)

/-- The items of a tree from left to right. -/
def Tree.inOrder : Tree → List Item
  | .unary op operand => .prefixOp op :: operand.inOrder
  | .binary op left right => left.inOrder ++ .infixOp op :: right.inOrder
  | .literal value => [.leaf (.literal value)]
  | .reference name => [.leaf (.reference name)]
  | .array group => [.leaf (.array group)]
  | .call name group => [.leaf (.call name group)]

/-- What stands behind the prefix operators of an operand. -/
inductive Leaf where
  | literal (value : Value)
  | reference (name : String)

/-- The tree of a leaf. -/
def Leaf.tree : Leaf → Tree
  | .literal value => .literal value
  | .reference name => .reference name

theorem Leaf.inOrder_tree (leaf : Leaf) : leaf.tree.inOrder = [.leaf leaf.tree] := by
  cases leaf with
  | literal value => rfl
  | reference name => rfl

/-- An operand of a chain. -/
structure Operand where
  prefixes : List PrefixOp := []
  leaf : Leaf

namespace Operand

/-- The items of the operand. -/
def items (x : Operand) : List Item :=
  x.prefixes.map .prefixOp ++ [.leaf x.leaf.tree]

/-- The tree of the operand. -/
def tree (x : Operand) : Tree :=
  x.prefixes.foldr .unary x.leaf.tree

theorem items_append_ne_nil (x : Operand) (items : List Item) : x.items ++ items ≠ [] := by
  simp [Operand.items]

theorem inOrder_tree (x : Operand) : x.tree.inOrder = x.items := by
  obtain ⟨prefixes, leaf⟩ := x
  induction prefixes with
  | nil => exact leaf.inOrder_tree
  | cons op prefixes ih => exact congrArg (Item.prefixOp op :: ·) ih

end Operand

/-- An infix operator with the operand behind it. -/
structure Link where
  op : InfixOp
  operand : Operand

/-- The items of one link after the other. -/
def Link.items (links : List Link) : List Item :=
  links.flatMap fun link => .infixOp link.op :: link.operand.items

theorem Link.length_le_items (links : List Link) : links.length ≤ (items links).length := by
  induction links with
  | nil => exact Nat.zero_le _
  | cons link links ih =>
    simp only [items, List.flatMap_cons, List.length_append, List.length_cons] at ih ⊢
    omega

/-- Operands with infix operators between them. -/
structure Chain where
  first : Operand
  links : List Link

namespace Chain

/-- The items of the chain. -/
def items (chain : Chain) : List Item :=
  chain.first.items ++ Link.items chain.links

/-- The operands of the chain. -/
def operands (chain : Chain) : List Operand :=
  chain.first :: chain.links.map (·.operand)

end Chain

/-! ## Shapes -/

namespace Tree

/-- The infix operator at the root. -/
def root? : Tree → Option InfixOp
  | .binary op _ _ => some op
  | _ => none

/-- No infix operator is below a prefix operator; below another infix operator it binds at least as
tightly on the left, and tighter on the right. -/
def Shaped : Tree → Prop
  | .unary _ operand => operand.root? = none ∧ operand.Shaped
  | .binary op left right =>
    (∀ inner, left.root? = some inner → op.precedence ≤ inner.precedence) ∧
      (∀ inner, right.root? = some inner → op.precedence < inner.precedence) ∧
      left.Shaped ∧ right.Shaped
  | _ => True

end Tree

theorem Operand.root?_tree (x : Operand) : x.tree.root? = none := by
  obtain ⟨prefixes, leaf⟩ := x
  cases prefixes with
  | nil =>
    cases leaf with
    | literal value => rfl
    | reference name => rfl
  | cons op prefixes => rfl

theorem Operand.shaped_tree (x : Operand) : x.tree.Shaped := by
  obtain ⟨prefixes, leaf⟩ := x
  induction prefixes with
  | nil =>
    cases leaf with
    | literal value => trivial
    | reference name => trivial
  | cons op prefixes ih => exact ⟨root?_tree ⟨prefixes, leaf⟩, ih⟩

/-! ## Texts -/

namespace Item

/-- The item is one token, spelled this way. -/
inductive Spelled (names : Names) : Item → List Char → Prop where
  | prefixOp {op : PrefixOp} {symbol : String} (h : PrefixOp.ofSymbol? symbol = some op) :
      Spelled names (.prefixOp op) symbol.toList
  | infixOp {op : InfixOp} {symbol : String} (h : InfixOp.ofSymbol? symbol = some op) :
      Spelled names (.infixOp op) symbol.toList
  | literal {value : Value} {cs : List Char} (h : value.Spelled cs) :
      Spelled names (.leaf (.literal value)) cs
  | reference {name : String} (hlexeme : Token.Kind.identifier.Fits name.toList)
      (htrue : Text.sameFolded name "true" = false) (hfalse : Text.sameFolded name "false" = false)
      (hconstant : names.constant? name = none) (hvariable : names.isVariable name = true) :
      Spelled names (.leaf (.reference name)) name.toList

/-- The items are spelled in the text one after the other, with blanks between any two of them. -/
inductive Spaced (names : Names) : List Item → List Char → Prop where
  | nil {blanks : List Char} (hblanks : ∀ d ∈ blanks, Text.isBlank d = true) :
      Spaced names [] blanks
  | cons {item : Item} {items : List Item} {blanks cs rest : List Char}
      (hblanks : ∀ d ∈ blanks, Text.isBlank d = true) (hitem : item.Spelled names cs)
      (hbehind : ∀ d ∈ rest.head?, Text.isBlank d = true) (hrest : Spaced names items rest) :
      Spaced names (item :: items) (blanks ++ (cs ++ rest))

variable {names : Names} {item : Item} {items : List Item} {cs rest text : List Char}

/-- The token may be the first of the items. -/
structure Leads (items : List Item) (token : Option Token) : Prop where
  none_iff : token = none ↔ items = []
  infixOp : ∀ op more, items = .infixOp op :: more → token.bind Token.infixOp? = some op
  not_opening : ∀ found, token = some found → found.isOpening "(" = false

/-- An item is read back before a blank, as the first of those that are spelled there. -/
theorem Spelled.heads (h : item.Spelled names cs) (hrest : ∀ d ∈ rest.head?, Scan.Ends d) :
    ∃ kind, Scan.Heads kind cs rest ∧ ∀ position length items,
      Leads (item :: items) (some ⟨kind, kind.textOf cs, position, length⟩) := by
  have hname : ∀ d ∈ rest.head?, Text.continuesName d = false := fun d hd => (hrest d hd).2.1
  cases h with
  | @prefixOp op symbol h =>
    refine ⟨.operator, heads_prefixOp h ?_, ?_⟩
    · rintro _ hd rfl
      exact (hrest _ hd).2.2 '=' (by decide)
    · exact fun _ _ _ => ⟨by simp, nofun, by rintro _ ⟨⟩; rfl⟩
  | @infixOp op symbol h =>
    obtain ⟨kind, hkind, hheads⟩ := heads_infix_of_head h hname fun d hd => (hrest d hd).2.2
    refine ⟨kind, hheads, fun position length _ => ⟨by simp, ?_, ?_⟩⟩
    · rintro _ _ ⟨⟩
      exact infixOp?_of_ofSymbol? h hkind
    · rintro _ ⟨⟩
      rcases hkind with rfl | rfl <;> rfl
  | literal h =>
    cases h with
    | number h =>
      refine ⟨_, Scan.heads_number h fun d hd => (hrest d hd).1, ?_⟩
      exact fun _ _ _ => ⟨by simp, nofun, by rintro _ ⟨⟩; rfl⟩
    | text h =>
      refine ⟨_, Scan.heads_string h rest, ?_⟩
      exact fun _ _ _ => ⟨by simp, nofun, by rintro _ ⟨⟩; rfl⟩
    | bool h =>
      refine ⟨_, Scan.heads_identifier (fits_of_truth h) hname, ?_⟩
      exact fun _ _ _ => ⟨by simp, nofun, by rintro _ ⟨⟩; rfl⟩
  | reference hlexeme _ _ _ _ =>
    refine ⟨_, Scan.heads_identifier hlexeme hname, ?_⟩
    exact fun _ _ _ => ⟨by simp, nofun, by rintro _ ⟨⟩; rfl⟩

open Formula.Parser

theorem Spaced.begins (h : Spaced names items text) : Begins text (Leads items) := by
  cases h with
  | nil hblanks =>
    intro position
    exact ⟨none, _, Cursor.next_of_blank hblanks position, by simp, nofun, nofun⟩
  | cons hblanks hitem hbehind hrest =>
    obtain ⟨kind, hheads, hleads⟩ := hitem.heads fun d hd => Scan.ends_of_blank (hbehind d hd)
    refine (begins_of_heads hheads ?_).behind_blanks hblanks
    exact fun position => hleads position _ _

theorem Spaced.begins_of_ne_nil (h : Spaced names items text) (hne : items ≠ []) :
    Begins text (· ≠ none) :=
  h.begins.mono fun _ hleads hnone => hne (hleads.none_iff.mp hnone)

/-- There are no more items than characters. -/
theorem Spaced.length_le (h : Spaced names items text) : items.length ≤ text.length := by
  induction h with
  | nil => exact Nat.zero_le _
  | cons _ hitem hbehind _ ih =>
    obtain ⟨_, hheads, _⟩ := hitem.heads fun d hd => Scan.ends_of_blank (hbehind d hd)
    have hpos := List.length_pos_iff.mpr hheads.ne_nil
    simp only [List.length_cons, List.length_append]
    omega

end Item

/-! ## Parsing -/

namespace Parser

variable {names : Names} {s : State} {item : Item} {items : List Item}

/-- The items are all that is still to be read. -/
def State.Awaits (names : Names) (s : State) (items : List Item) : Prop :=
  ∃ text, Item.Spaced names items text ∧ s.Faces text

namespace State.Awaits

theorem leads (h : s.Awaits names items) : Item.Leads items s.ahead := by
  obtain ⟨text, htext, hs⟩ := h
  exact htext.begins.ahead hs

/-- The first of the items stands ahead, before a blank or nothing, and the others behind it. -/
theorem cons (h : s.Awaits names (item :: items)) :
    ∃ cs rest, item.Spelled names cs ∧ s.Faces (cs ++ rest) ∧
      (∀ d ∈ rest.head?, Scan.Ends d) ∧ Item.Spaced names items rest := by
  obtain ⟨text, htext, hs⟩ := h
  cases htext with
  | cons hblanks hitem hbehind hrest =>
    exact ⟨_, _, hitem, hs.of_blanks hblanks, fun d hd => Scan.ends_of_blank (hbehind d hd), hrest⟩

end State.Awaits

variable {setting : Setting} {inside : Parser Tree} {below : Option (Parser Tree)}
  {failure : Error → Prop}

/-- A leaf is an operand within any budget. -/
theorem meets_operandOver_of_leaf {leaf : Leaf}
    (hs : s.Awaits setting.names (.leaf leaf.tree :: items)) :
    Meets (operandOver setting inside below) s
      (fun t s' => t = leaf.tree ∧ s'.Awaits setting.names items) failure := by
  obtain ⟨cs, rest, hitem, hfaces, hends, hrest⟩ := hs.cons
  have hname : ∀ d ∈ rest.head?, Text.continuesName d = false := fun d hd => (hends d hd).2.1
  cases leaf with
  | literal value =>
    cases hitem with
    | literal h =>
      refine (meets_operandOver_of_value h (fun d hd => (hends d hd).1) hname hrest.begins
        hfaces).mono ?_ fun _ he => he
      rintro t s' ⟨rfl, hs'⟩
      exact ⟨rfl, rest, hrest, hs'⟩
  | reference name =>
    cases hitem with
    | reference hlexeme htrue hfalse hconstant hvariable =>
      have hbegins := hrest.begins.mono fun _ hleads => hleads.not_opening
      refine (meets_operandOver_of_variable hlexeme htrue hfalse hconstant hvariable hname hbegins
        hfaces).mono ?_ fun _ he => he
      rintro t s' ⟨rfl, hs'⟩
      exact ⟨rfl, rest, hrest, hs'⟩

/-- An operand is parsed within a budget of as many levels as it has prefix operators. -/
theorem meets_operand_stage {x : Operand} {n : Nat} (hbudget : x.prefixes.length ≤ n)
    (hs : s.Awaits setting.names (x.items ++ items)) :
    Meets (stage setting n).operand s
      (fun t s' => t = x.tree ∧ s'.Awaits setting.names items) failure := by
  obtain ⟨prefixes, leaf⟩ := x
  -- on the prefix operators, each of which takes one level
  induction prefixes generalizing n s with
  | nil =>
    obtain ⟨below, hstage⟩ := operand_stage setting n
    rw [hstage]
    exact meets_operandOver_of_leaf hs
  | cons op prefixes ih =>
    obtain ⟨n, rfl⟩ : ∃ m, n = m + 1 := ⟨n - 1, by simp only [List.length_cons] at hbudget; omega⟩
    obtain ⟨cs, rest, hitem, hfaces, hends, hrest⟩ := hs.cons
    cases hitem with
    | prefixOp hop =>
      have hequals : ∀ d ∈ rest.head?, d ≠ '=' := by
        rintro _ hd rfl
        exact (hends _ hd).2.2 '=' (by decide)
      have hbegins := hrest.begins_of_ne_nil (Operand.items_append_ne_nil ⟨prefixes, leaf⟩ items)
      rw [operand_stage_succ]
      refine meets_operandOver_of_prefix hop (heads_prefixOp hop hequals) hbegins hfaces ?_
      intro s' hs'
      have hoperand := ih (Nat.le_of_succ_le_succ hbudget) ⟨rest, hrest, hs'⟩
      refine meets_map (hoperand.mono ?_ fun _ he => he)
      rintro t s'' ⟨rfl, hs''⟩
      exact ⟨rfl, hs''⟩

/-! ## Climbing -/

/-- The tree holds what stands before the links and as many of them as its level allows, those behind
`behind` left aside. -/
structure Grown (before : List Item) (links : List Link) (least : Nat) (t : Tree)
    (behind : List Link) : Prop where
  inOrder_eq : ∃ taken, links = taken ++ behind ∧ t.inOrder = before ++ Link.items taken
  shaped : t.Shaped
  root_le : ∀ op, t.root? = some op → least ≤ op.precedence
  stops : ∀ link ∈ behind.head?, link.op.precedence < least

/-- At its level, the parser makes a tree of the first operand and the links behind it, if none of the
operands has more than `prefixes` prefix operators. -/
def Grows (names : Names) (prefixes size least : Nat) (x : Parser Tree) : Prop :=
  ∀ {s : State} {first : Operand} {links : List Link},
    (∀ operand ∈ (Chain.mk first links).operands, operand.prefixes.length ≤ prefixes) →
      links.length ≤ size → s.Awaits names (first.items ++ Link.items links) →
        Meets x s (fun t s' => ∃ behind, Grown first.items links least t behind ∧
          s'.Awaits names (Link.items behind)) fun _ => False

section Climbing

variable {right : Nat → Parser Tree} {least prefixes size : Nat}

/-- The loop over the operators goes on with the links as long as they belong to its level. -/
theorem meets_climb_of_links
    (hright : ∀ op : InfixOp, least ≤ op.precedence →
      Grows names prefixes size (op.precedence + 1) (right (op.precedence + 1)))
    {turns : Nat} {left : Tree} {links : List Link}
    (hprefixes : ∀ link ∈ links, link.operand.prefixes.length ≤ prefixes)
    (hturns : links.length ≤ turns) (hsize : links.length ≤ size) (hshaped : left.Shaped)
    (hroot : ∀ op, left.root? = some op → least ≤ op.precedence)
    (hnext : ∀ link ∈ links.head?, ∀ op, left.root? = some op →
      link.op.precedence ≤ op.precedence)
    (hs : s.Awaits names (Link.items links)) :
    Meets (climb right least turns left) s
      (fun t s' => ∃ behind, Grown left.inOrder links least t behind ∧
        s'.Awaits names (Link.items behind)) fun _ => False := by
  -- on the turns: a turn takes a link at least, and the tree so far becomes its left operand
  induction turns generalizing left links s with
  | zero =>
    obtain rfl : links = [] := List.length_eq_zero_iff.mp (Nat.le_zero.mp hturns)
    exact ⟨[], ⟨⟨[], rfl, (List.append_nil _).symm⟩, hshaped, hroot, nofun⟩, hs⟩
  | succ turns ih =>
    have hstop : (∀ link ∈ links.head?, link.op.precedence < least) →
        ∃ behind, Grown left.inOrder links least left behind ∧ s.Awaits names (Link.items behind) :=
      fun hstops => ⟨links, ⟨⟨[], rfl, (List.append_nil _).symm⟩, hshaped, hroot, hstops⟩, hs⟩
    cases links with
    | nil =>
      have hnone : s.ahead = none := hs.leads.none_iff.mpr rfl
      refine meets_climb_succ (fun _ => hstop nofun) ?_
      intro op hop
      simp [hnone] at hop
    | cons link links =>
      have hahead : s.ahead.bind Token.infixOp? = some link.op := hs.leads.infixOp _ _ rfl
      by_cases hlevel : link.op.precedence < least
      · refine meets_climb_succ (fun _ => hstop ?_) ?_
        · rintro _ ⟨⟩
          exact hlevel
        · intro op hop hle
          cases hahead.symm.trans hop
          omega
      · have hleast : least ≤ link.op.precedence := Nat.le_of_not_lt hlevel
        obtain ⟨cs, rest, hitem, hfaces, hends, hrest⟩ := hs.cons
        cases hitem with
        | infixOp hop =>
          obtain ⟨kind, hkind, hheads⟩ := heads_infix_of_head hop (fun d hd => (hends d hd).2.1)
            fun d hd => (hends d hd).2.2
          have hbegins := hrest.begins_of_ne_nil (link.operand.items_append_ne_nil _)
          have hoperands : ∀ operand ∈ (Chain.mk link.operand links).operands,
              operand.prefixes.length ≤ prefixes := by
            intro operand hoperand
            rcases List.mem_cons.mp hoperand with rfl | hmem
            · exact hprefixes link List.mem_cons_self
            · obtain ⟨other, hother, rfl⟩ := List.mem_map.mp hmem
              exact hprefixes other (List.mem_cons_of_mem link hother)
          refine meets_climb_of_symbol hop hkind hheads hbegins hleast hfaces ?_
          intro s' hs'
          refine (hright link.op hleast hoperands (Nat.le_of_succ_le hsize)
            ⟨rest, hrest, hs'⟩).mono ?_ fun _ he => he
          rintro operand s'' ⟨behind, hgrown, hs''⟩
          obtain ⟨⟨taken, rfl, hinOrder⟩, hshaped', hroot', hstops⟩ := hgrown
          simp only [List.length_cons, List.length_append] at hturns hsize
          refine (ih ?_ (by omega) (by omega) ?_ ?_ ?_ hs'').mono ?_ fun _ he => he
          · intro other hother
            exact hprefixes other (List.mem_cons_of_mem link (List.mem_append_right taken hother))
          · exact ⟨fun inner => hnext link rfl inner, fun inner => hroot' inner, hshaped, hshaped'⟩
          · rintro _ ⟨⟩
            exact hleast
          · -- the right operand stopped before what binds no tighter than the operator
            rintro other hother _ ⟨⟩
            exact Nat.le_of_lt_succ (hstops other hother)
          · rintro t s₁ ⟨behind', ⟨⟨taken', rfl, htree⟩, hshaped₁, hroot₁, hstops₁⟩, hs₁⟩
            refine ⟨behind', ⟨⟨link :: taken ++ taken', by simp, ?_⟩, hshaped₁, hroot₁, hstops₁⟩, hs₁⟩
            rw [htree, Tree.inOrder, hinOrder]
            simp [Link.items]

end Climbing

/-- Within a budget that is left for the prefix operators and for the levels above its own, the
parser of expressions grows a tree. -/
theorem grows_stage {prefixes n least : Nat} (hleast : least ≤ operandLevel)
    (hbudget : prefixes + operandLevel < n + least) :
    Grows setting.names prefixes setting.turns least ((stage setting n).expression least) := by
  -- on the budget: a right operand has one level less of it and binds tighter by one at least, so
  -- that the sum of the two stays what it was
  induction n generalizing least with
  | zero => omega
  | succ n ih =>
    intro s first links hprefixes hsize hs
    have hfirst : first.prefixes.length ≤ n := by
      have hle := hprefixes first List.mem_cons_self
      omega
    refine meets_bind (meets_operand_stage hfirst hs) ?_
    rintro _ s' ⟨rfl, hs'⟩
    have hright : ∀ op : InfixOp, least ≤ op.precedence → Grows setting.names prefixes setting.turns
        (op.precedence + 1) ((stage setting n).expression (op.precedence + 1)) :=
      fun op hle => ih op.precedence_lt_operandLevel (by omega)
    have hlinks : ∀ link ∈ links, link.operand.prefixes.length ≤ prefixes := by
      intro link hlink
      exact hprefixes _ (List.mem_cons_of_mem first (List.mem_map_of_mem hlink))
    rw [← first.inOrder_tree]
    refine meets_climb_of_links hright hlinks hsize hsize first.shaped_tree ?_ ?_ hs'
    · intro op hop
      cases first.root?_tree.symm.trans hop
    · intro _ _ op hop
      cases first.root?_tree.symm.trans hop

end Parser

/-! ## Whole texts -/

open Formula.Parser

/-- A chain is parsed into a tree that has its items in order and the shape of precedence, if the
budget is left for its prefix operators. -/
theorem Names.exists_parse_of_spaced {names : Names} {depth : Nat} {chain : Chain} {text : String}
    (hprefixes : ∀ operand ∈ chain.operands,
      operand.prefixes.length + operandLevel + depth < nestingLimit)
    (htext : Item.Spaced names chain.items text.toList) :
    ∃ tree, names.parse depth text = .ok tree ∧ tree.inOrder = chain.items ∧ tree.Shaped := by
  have hroom := hprefixes chain.first List.mem_cons_self
  have hlimit : ∀ operand ∈ chain.operands,
      operand.prefixes.length ≤ nestingLimit - depth - (operandLevel + 1) := by
    intro operand hoperand
    have hlt := hprefixes operand hoperand
    omega
  have hsize : chain.links.length ≤ text.length + 1 := by
    have hitems := htext.length_le
    have hlinks := Link.length_le_items chain.links
    rw [Chain.items, List.length_append, String.length_toList] at hitems
    omega
  have hparse : Ends (names.parse depth text)
      (fun tree => tree.inOrder = chain.items ∧ tree.Shaped) fun _ => False := by
    refine parse_meets_of_begins htext.begins ?_
    rintro s ⟨position, hs⟩
    have hgrows : Grows names (nestingLimit - depth - (operandLevel + 1)) (text.length + 1) 0
        ((stage ⟨names, depth, text.length + 1⟩ (nestingLimit - depth)).expression 0) :=
      @grows_stage ⟨names, depth, text.length + 1⟩ _ _ 0 (Nat.zero_le operandLevel) (by omega)
    refine (hgrows hlimit hsize ⟨text.toList, htext, position, hs⟩).mono ?_ fun _ he => he
    rintro tree s' ⟨behind, ⟨⟨taken, htaken, hinOrder⟩, hshaped, _, hstops⟩, hs'⟩
    -- no operator binds more loosely than the level of the whole text
    obtain rfl : behind = [] := by
      cases behind with
      | nil => rfl
      | cons link _ => exact absurd (hstops link rfl) (Nat.not_lt_zero _)
    rw [List.append_nil] at htaken
    exact ⟨⟨by rw [Chain.items, htaken, hinOrder], hshaped⟩, hs'.leads.none_iff.mpr rfl⟩
  cases hrun : names.parse depth text with
  | ok tree =>
    rw [hrun] at hparse
    exact ⟨tree, rfl, hparse⟩
  | error e =>
    rw [hrun] at hparse
    exact hparse.elim

/-- A chain of operands with at most 200 prefix operators each is parsed, however long it is, into a
tree that has its items in order and the shape of precedence. -/
theorem Scope.parse_of_spaced {scope : Scope} (hdepth : scope.depth = 0) {chain : Chain}
    (hprefixes : ∀ operand ∈ chain.operands, operand.prefixes.length ≤ 200) {text : String}
    (htext : Item.Spaced (scope.registry.names scope.mode) chain.items text.toList) :
    ∃ tree, scope.parse text = .ok tree ∧ tree.inOrder = chain.items ∧ tree.Shaped := by
  refine Names.exists_parse_of_spaced ?_ htext
  intro operand hoperand
  have hle := hprefixes operand hoperand
  rw [hdepth]
  simp only [operandLevel, nestingLimit]
  omega

/-- The chain of `- Paid + 2 * ! TRUE or 'x'`. -/
def mixedChain : Chain where
  first := { prefixes := [.negate], leaf := .reference "Paid" }
  links :=
    [{ op := .add, operand := { leaf := .literal (.number (Decimal.nearest false 2 0)) } },
     { op := .mul, operand := { prefixes := [.not], leaf := .literal (.bool true) } },
     { op := .or, operand := { leaf := .literal (.text "x") } }]

theorem Scope.parse_of_spaced_mixed :
    paidScope.depth = 0 ∧
      (∀ operand ∈ mixedChain.operands, operand.prefixes.length ≤ 200) ∧
      Item.Spaced (paidScope.registry.names paidScope.mode) mixedChain.items
        "- Paid +\t2 * ! TRUE  or 'x' ".toList ∧
      ∃ tree, paidScope.parse "- Paid +\t2 * ! TRUE  or 'x' " = .ok tree ∧
        tree.inOrder = mixedChain.items ∧ tree.Shaped := by
  let names := paidScope.registry.names paidScope.mode
  have hnone : ∀ d ∈ ([] : List Char), Text.isBlank d = true := nofun
  have hspace : ∀ d ∈ [' '], Text.isBlank d = true := forall_mem_of_all (by decide)
  have hspaces : ∀ d ∈ [' ', ' '], Text.isBlank d = true := forall_mem_of_all (by decide)
  have htab : ∀ d ∈ ['\t'], Text.isBlank d = true := forall_mem_of_all (by decide)
  have hbehind : ∀ d ∈ some ' ', Text.isBlank d = true := by
    rintro _ ⟨⟩
    decide
  have hbefore : ∀ d ∈ some '\t', Text.isBlank d = true := by
    rintro _ ⟨⟩
    decide
  have hpaid : (Item.leaf (.reference "Paid")).Spelled names "Paid".toList := by
    have hfits : Token.Kind.identifier.Fits "Paid".toList :=
      ⟨'P', ['a', 'i', 'd'], by decide, by decide, forall_mem_of_all (by decide)⟩
    exact .reference hfits (by decide) (by decide) (by decide) (by decide)
  have htwo : (Item.leaf (.literal (.number (Decimal.nearest false 2 0)))).Spelled names
      "2".toList := .literal (.number rfl)
  have htrue : (Item.leaf (.literal (.bool true))).Spelled names "TRUE".toList :=
    .literal (.bool (by decide))
  have hquoted : (Item.leaf (.literal (.text "x"))).Spelled names "'x'".toList :=
    .literal (.text (by decide))
  have htail : Item.Spaced names (Link.items (mixedChain.links.drop 1))
      " * ! TRUE  or 'x' ".toList :=
    .cons hspace (@Item.Spelled.infixOp _ .mul "*" rfl) hbehind <|
    .cons hspace (@Item.Spelled.prefixOp _ .not "!" rfl) hbehind <|
    .cons hspace htrue hbehind <|
    .cons hspaces (@Item.Spelled.infixOp _ .or "or" rfl) hbehind <|
    .cons hspace hquoted hbehind (.nil hspace)
  have htext : Item.Spaced names mixedChain.items "- Paid +\t2 * ! TRUE  or 'x' ".toList :=
    .cons hnone (@Item.Spelled.prefixOp _ .negate "-" rfl) hbehind <|
    .cons hspace hpaid hbehind <|
    .cons hspace (@Item.Spelled.infixOp _ .add "+" rfl) hbefore <|
    .cons htab htwo hbehind htail
  have hprefixes : ∀ operand ∈ mixedChain.operands, operand.prefixes.length ≤ 200 := by decide
  exact ⟨rfl, hprefixes, htext, Scope.parse_of_spaced rfl hprefixes htext⟩

end Formula
