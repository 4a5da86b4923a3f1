import Formula.Proofs.Predicate.Agreement

/-! # Compiling is typing

Whether a tree compiles, and the error if it does not, is settled by the types of its parts. So the
types of what a binder gives for the names are all of the binder that compiling depends on; nothing
depends on what is read from a record.
-/

namespace Formula

/-! ## The types of operators -/

/-- The type of what the operator makes of an operand of a type. -/
def PrefixOp.type : PrefixOp → Kind → Except Error Kind
  | .plus, kind => .ok kind
  | .negate, .number | .not, .number | .complement, .number => .ok .number
  | .not, .bool | .complement, .bool => .ok .bool
  | op, kind => .error (.unsupportedOperator op.symbol kind.name)

/-- The type of what the operator makes of two operands of one type, by its tables. -/
def InfixOp.typeOn? (op : InfixOp) : Kind → Option Kind
  | .number =>
    match op.arithmetic?, op.order? with
    | some _, _ => some .number
    | none, some _ => some .bool
    | none, none => none
  | .text => if op.order?.isSome ∨ op = .like then some .bool else none
  | .bool => if op.decisive?.isSome ∨ op.logic?.isSome then some .bool else none
  | .array => none

/-- The type of what the operator makes of operands of two types. -/
def InfixOp.type (op : InfixOp) (left right : Kind) : Except Error Kind :=
  if op = .bitXor then .error (.notImplemented op.symbol)
  else if op = .add ∧ (left = .text ∨ right = .text) then .ok .text
  else if op = .eq ∨ op = .ne then
    if left = right then .ok .bool
    else .error (.unsupportedOperator op.symbol (left.name ++ " and " ++ right.name))
  else
    match if left = right then op.typeOn? left else none with
    | some kind => .ok kind
    | none => .error (.unsupportedOperator op.symbol (Compiled.typeNames left right))

namespace Compiled

variable {ρ : Type}

theorem kind_constant (v : Value) : (constant v : Compiled ρ).kind = v.kind := by
  cases v <;> rfl

theorem map_kind_ofPrefix (op : PrefixOp) (x : Compiled ρ) :
    (ofPrefix op x).map kind = op.type x.kind := by
  cases op <;> cases x <;> rfl

theorem map_kind_equality (op : InfixOp) (negated : Bool) (x y : Compiled ρ) :
    (equality op negated x y).map kind =
      if x.kind = y.kind then .ok .bool
      else .error (.unsupportedOperator op.symbol (x.kind.name ++ " and " ++ y.kind.name)) := by
  cases x <;> cases y <;> rfl

/-- The row of two parts has the type that evaluation's tables give for the types of the parts. -/
theorem map_kind_row? {op : InfixOp} (hxor : op ≠ .bitXor) (x y : Compiled ρ) :
    (row? op x y).map kind = if x.kind = y.kind then op.typeOn? x.kind else none := by
  cases x with
  | number f =>
    cases y with
    | number g =>
      cases op with
      | bitXor => exact absurd rfl hxor
      | _ => rfl
    | text g | bool g | array g => rfl
  | text f =>
    cases y with
    | text g => cases op <;> rfl
    | number g | bool g | array g => rfl
  | bool f =>
    cases y with
    | bool g =>
      cases op with
      | bitXor => exact absurd rfl hxor
      | _ => rfl
    | number g | text g | array g => rfl
  | array f =>
    cases y with
    | array g => cases op <;> rfl
    | number g | text g | bool g => rfl

theorem map_kind_ofInfix (op : InfixOp) (x y : Compiled ρ) :
    (ofInfix op x y).map kind = op.type x.kind y.kind := by
  unfold ofInfix InfixOp.type
  by_cases hxor : op = .bitXor
  · rw [if_pos hxor, if_pos hxor]
    rfl
  rw [if_neg hxor, if_neg hxor]
  split
  · rfl
  by_cases heq : op = .eq
  · rw [if_pos heq, if_pos (.inl heq), map_kind_equality]
  by_cases hne : op = .ne
  · rw [if_neg heq, if_pos hne, if_pos (.inr hne), map_kind_equality]
  rw [if_neg heq, if_neg hne, if_neg (not_or.mpr ⟨heq, hne⟩), ← map_kind_row? hxor]
  cases row? op x y with
  | none => rfl
  | some part => rfl

end Compiled

/-! ## The types of trees -/

/-- For each name both binders give nothing, or parts of one type. -/
def Binder.SameKinds {ρ ρ' : Type} (binder : Binder ρ) (binder' : Binder ρ') : Prop :=
  ∀ name, (binder name).map Compiled.kind = (binder' name).map Compiled.kind

section Trees

variable {ρ ρ' : Type} {scope : Scope} {binder : Binder ρ} {binder' : Binder ρ'}

theorem Compiling.map_kind_askBinder (h : binder.SameKinds binder') (name : String) :
    Compiled.kind <$> askBinder binder name = Compiled.kind <$> askBinder binder' name := by
  have hname := h name
  funext requests
  rw [Recorded.map_apply, Recorded.map_apply]
  unfold askBinder
  cases hbound : binder name with
  | none =>
    rw [hbound] at hname
    rw [Option.map_eq_none_iff.mp hname.symm]
    rfl
  | some part =>
    rw [hbound] at hname
    obtain ⟨part', hbound', hkind⟩ := Option.map_eq_some_iff.mp hname.symm
    rw [hbound']
    show (Except.ok part.kind, _) = (Except.ok part'.kind, _)
    rw [hkind]

/-- The type of what is evaluated when the tree is compiled is that of the value. -/
theorem Compiling.map_kind_constant (x : Compiling Value) :
    Compiled.kind <$> ((Compiled.constant : Value → Compiled ρ) <$> x) = Value.kind <$> x := by
  rw [Functor.map_map]
  simp only [Compiled.kind_constant]

/-- The type of an operator on a part is that of the operator on its type. -/
theorem Tree.map_kind_unary (op : PrefixOp) (operand : Tree) :
    Compiled.kind <$> (Tree.unary op operand).compile scope binder = (do
      let kind ← Compiled.kind <$> operand.compile scope binder
      Recorded.ofExcept (op.type kind)) := by
  rw [compile, map_bind, bind_map_left]
  simp only [Recorded.map_ofExcept, Compiled.map_kind_ofPrefix]

theorem Tree.map_kind_binary (op : InfixOp) (left right : Tree) :
    Compiled.kind <$> (Tree.binary op left right).compile scope binder = (do
      let kind ← Compiled.kind <$> left.compile scope binder
      let kind' ← Compiled.kind <$> right.compile scope binder
      Recorded.ofExcept (op.type kind kind')) := by
  rw [compile, map_bind, bind_map_left]
  simp only [map_bind, bind_map_left, Recorded.map_ofExcept, Compiled.map_kind_ofInfix]

/-- The type of a compiled tree, and the error if there is none, depend on the types that the binder
gives to names. -/
theorem Tree.map_kind_compile (h : binder.SameKinds binder') (tree : Tree) :
    Compiled.kind <$> tree.compile scope binder = Compiled.kind <$> tree.compile scope binder' := by
  induction tree with
  | literal value =>
    rw [compile, compile, map_pure, map_pure, Compiled.kind_constant, Compiled.kind_constant]
  | reference name => exact Compiling.map_kind_askBinder h name
  | array group => rw [compile, compile, Compiling.map_kind_constant, Compiling.map_kind_constant]
  | call name group =>
    rw [compile, compile, Compiling.map_kind_constant, Compiling.map_kind_constant]
  | unary op operand ih => rw [map_kind_unary, map_kind_unary, ih]
  | binary op left right ihl ihr => rw [map_kind_binary, map_kind_binary, ihl, ihr]

/-! ## Tests -/

/-- Two compilations succeed, or they fail with one error; the same has been asked for. -/
structure Compiling.EndsAlike {α β : Type} (x : Except Error α × Requests)
    (y : Except Error β × Requests) : Prop where
  succeeds_iff : (∃ a, x.1 = .ok a) ↔ ∃ b, y.1 = .ok b
  fails_iff : ∀ e, x.1 = .error e ↔ y.1 = .error e
  requests_eq : x.2 = y.2

/-- So it is if nothing but the results tells the computations apart. -/
theorem Compiling.endsAlike_of_map {α β γ : Type} {f : α → γ} {g : β → γ} {x : Compiling α}
    {y : Compiling β} (h : f <$> x = g <$> y) (requests : Requests) :
    EndsAlike (x requests) (y requests) := by
  have hrun := congrFun h requests
  rw [Recorded.map_apply, Recorded.map_apply] at hrun
  rcases hx : x requests with ⟨outcome, later⟩
  rcases hy : y requests with ⟨outcome', later'⟩
  rw [hx, hy] at hrun
  obtain ⟨houtcome, hlater⟩ := Prod.mk.inj hrun
  obtain rfl : later = later' := hlater
  cases outcome with
  | error e =>
    cases outcome' with
    | error e' =>
      cases houtcome
      exact ⟨⟨nofun, nofun⟩, by simp only [Except.error.injEq, implies_true], rfl⟩
    | ok b => cases houtcome
  | ok a =>
    cases outcome' with
    | error e' => cases houtcome
    | ok b => exact ⟨⟨fun _ => ⟨b, rfl⟩, fun _ => ⟨a, rfl⟩⟩, fun _ => ⟨nofun, nofun⟩, rfl⟩

/-- Whether a part is a test is settled by its type. -/
def Kind.test : Kind → Except Error Unit
  | .bool => .ok ()
  | kind => .error (.notAPredicate kind.name)

theorem Predicate.map_ofCompiled (x : Compiled ρ) :
    (ofCompiled x).map (fun _ => ()) = x.kind.test := by
  cases x <;> rfl

theorem Predicate.map_ofTreeIn (scope : Scope) (binder : Binder ρ) (tree : Tree) :
    (fun _ => ()) <$> ofTreeIn scope binder tree = (do
      let kind ← Compiled.kind <$> tree.compile scope binder
      Recorded.ofExcept kind.test) := by
  rw [ofTreeIn, map_bind, bind_map_left]
  simp only [Recorded.map_ofExcept, map_ofCompiled]

/-- With binders that give the same types to names, a tree in a scope compiles or fails to, and with
the same error; and so does an expression, or the lack of one. What a binder reads from records
makes no difference. -/
theorem Predicate.endsAlike_of_sameKinds (h : binder.SameKinds binder') :
    (∀ scope tree requests, Compiling.EndsAlike (ofTreeIn scope binder tree requests)
      (ofTreeIn scope binder' tree requests)) ∧
    ∀ e requests, Compiling.EndsAlike (ofExpression binder e requests)
      (ofExpression binder' e requests) := by
  have htree : ∀ scope tree, (fun _ => ()) <$> ofTreeIn scope binder tree =
      (fun _ => ()) <$> ofTreeIn scope binder' tree := by
    intro scope tree
    rw [map_ofTreeIn, map_ofTreeIn, Tree.map_kind_compile h]
  refine ⟨fun scope tree => Compiling.endsAlike_of_map (htree scope tree), ?_⟩
  intro e
  cases e with
  | none => exact Compiling.endsAlike_of_map (f := fun _ => ()) (g := fun _ => ()) rfl
  | some e =>
    refine Compiling.endsAlike_of_map (f := fun _ => ()) (g := fun _ => ()) ?_
    simp only [ofExpression, map_bind, htree]

end Trees

/-- A name and an age that are read from no record. -/
def guestBinder : Binder Unit
  | "name" => some (.constant (.text "guest"))
  | "age" => some (.constant (.number 0))
  | _ => none

theorem personBinder_sameKinds : personBinder.SameKinds guestBinder := by
  intro name
  unfold personBinder guestBinder
  split
  · rfl
  · rfl
  · simp

/-- The tree of `name like 'oh' and -name > 3`. -/
def negatedTree : Tree :=
  .binary .and (.binary .like (.reference "name") (.literal (.text "oh")))
    (.binary .gt (.unary .negate (.reference "name")) (.literal (.number 3)))

theorem Predicate.endsAlike_of_sameKinds_guest :
    personBinder.SameKinds guestBinder ∧
      (∃ p, (ofTreeIn (personScope ("Mary", 30)) guestBinder adultTree {}).1 = .ok p) ∧
      (ofTreeIn (personScope ("Mary", 30)) guestBinder negatedTree {}).1 =
        .error (.unsupportedOperator "-" "string") := by
  have halike := (endsAlike_of_sameKinds personBinder_sameKinds).1 (personScope ("Mary", 30))
  refine ⟨personBinder_sameKinds, (halike adultTree {}).succeeds_iff.mp ?_,
    ((halike negatedTree {}).fails_iff _).mp rfl⟩
  rcases hp : (ofTreeIn (personScope ("Mary", 30)) personBinder adultTree {}).1 with e | p
  · cases hp
  · exact ⟨p, rfl⟩

end Formula
