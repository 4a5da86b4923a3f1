import Formula.Expression

/-! # Predicates

A tree can be compiled into a test of records. The binder says what a reference means: a value that
does not depend on the record, or a field read from it. Every compiled part has a type, and operators
are settled by the types of their operands, so that a test runs without parsing and without type
errors. Arrays and calls do not depend on the record and are evaluated while compiling.
-/

namespace Formula

/-! ## Compiled parts -/

/-- A result, and the names of the fields read for it in order. -/
structure Reading (α : Type) where
  result : α
  fields : List String := []
deriving DecidableEq, Repr

namespace Reading

instance : Monad Reading where
  pure x := { result := x }
  bind x f :=
    let y := f x.result
    { result := y.result, fields := x.fields ++ y.fields }

@[simp]
theorem result_pure {α : Type} (x : α) : (pure x : Reading α).result = x := rfl

@[simp]
theorem fields_pure {α : Type} (x : α) : (pure x : Reading α).fields = [] := rfl

@[simp]
theorem result_bind {α β : Type} (x : Reading α) (f : α → Reading β) :
    (x >>= f).result = (f x.result).result := rfl

@[simp]
theorem fields_bind {α β : Type} (x : Reading α) (f : α → Reading β) :
    (x >>= f).fields = x.fields ++ (f x.result).fields := rfl

@[simp]
theorem result_map {α β : Type} (f : α → β) (x : Reading α) : (f <$> x).result = f x.result := rfl

@[simp]
theorem fields_map {α β : Type} (f : α → β) (x : Reading α) : (f <$> x).fields = x.fields := by
  simp [Functor.map]

end Reading

/-- A compiled part over records of the type `ρ`, by the type of what it yields. -/
inductive Compiled (ρ : Type) where
  | number (run : ρ → Reading Float)
  | text (run : ρ → Reading String)
  | bool (run : ρ → Reading Bool)
  | array (run : ρ → Reading (List Value))

namespace Compiled

variable {ρ : Type}

/-- The type of what the part yields. -/
def kind : Compiled ρ → Kind
  | .number _ => .number
  | .text _ => .text
  | .bool _ => .bool
  | .array _ => .array

/-- A value that does not depend on the record. -/
def constant : Value → Compiled ρ
  | .number x => .number fun _ => pure x
  | .text s => .text fun _ => pure s
  | .bool b => .bool fun _ => pure b
  | .array items => .array fun _ => pure items

/-- What the part yields on a record, as a value. -/
def run : Compiled ρ → ρ → Reading Value
  | .number f, r => .number <$> f r
  | .text f, r => .text <$> f r
  | .bool f, r => .bool <$> f r
  | .array f, r => .array <$> f r

/-- What the part yields, as the text of a value. -/
def display (part : Compiled ρ) (r : ρ) : Reading String :=
  Value.display <$> part.run r

/-! ## Operators -/

/-- Both operands, the left one first. -/
def both {α β γ : Type} (f : α → β → γ) (left : ρ → Reading α) (right : ρ → Reading β) (r : ρ) :
    Reading γ := do
  let a ← left r
  let b ← right r
  pure (f a b)

/-- The right operand only if the left one is not `decisive`. -/
def unlessSettled (decisive : Bool) (left right : ρ → Reading Bool) (r : ρ) : Reading Bool := do
  let a ← left r
  if a = decisive then pure a else right r

/-- The types of two operands in a message: one name if they are alike. -/
def typeNames (left right : Kind) : String :=
  if left = right then left.name else left.name ++ " and " ++ right.name

/-- A prefix operator on a part. -/
def ofPrefix : PrefixOp → Compiled ρ → Except Error (Compiled ρ)
  | .plus, x => .ok x
  | .negate, .number f => .ok (.number fun r => (- ·) <$> f r)
  | .not, .bool f | .complement, .bool f => .ok (.bool fun r => (! ·) <$> f r)
  | .not, .number f | .complement, .number f =>
    .ok (.number fun r => (fun x => Number.ofWord (~~~(Number.toWord x))) <$> f r)
  | op, x => .error (.unsupportedOperator op.symbol x.kind.name)

/-- Whether two parts yield equal values. The message names both types, alike or not. -/
def equality (op : InfixOp) (negated : Bool) :
    (left right : Compiled ρ) → Except Error (Compiled ρ)
  | .number f, .number g => .ok (.bool (both (fun a b => (a == b) ^^ negated) f g))
  | .text f, .text g => .ok (.bool (both (fun a b => (a == b) ^^ negated) f g))
  | .bool f, .bool g => .ok (.bool (both (fun a b => (a == b) ^^ negated) f g))
  | .array f, .array g => .ok (.bool (both (fun a b => Value.equalAll a b ^^ negated) f g))
  | left, right =>
    .error (.unsupportedOperator op.symbol (left.kind.name ++ " and " ++ right.kind.name))

/-! ### Rows

What the compiler makes of two parts of one type, operator by operator. The tables of evaluation are
not consulted. -/

/-- The number computed of two. -/
def numeric (f : Float → Float → Float) (left right : ρ → Reading Float) : Compiled ρ :=
  .number (both f left right)

/-- Whether two results compare. -/
def compare {α : Type} (f : α → α → Bool) (left right : ρ → Reading α) : Compiled ρ :=
  .bool (both f left right)

/-- The rows of two numbers. -/
def ofNumbers (left right : ρ → Reading Float) : InfixOp → Option (Compiled ρ)
  | .add => some (numeric (· + ·) left right)
  | .sub => some (numeric (· - ·) left right)
  | .mul => some (numeric (· * ·) left right)
  | .div => some (numeric (· / ·) left right)
  | .rem => some (numeric Number.remainder left right)
  | .shiftRight => some (numeric (Number.onWords fun a b => a >>> b) left right)
  | .shiftLeft => some (numeric (Number.onWords fun a b => a <<< b) left right)
  | .bitAnd => some (numeric (Number.onWords fun a b => a &&& b) left right)
  | .bitOr => some (numeric (Number.onWords fun a b => a ||| b) left right)
  | .lt => some (compare (fun a b => a < b) left right)
  | .le => some (compare (fun a b => a ≤ b) left right)
  | .gt => some (compare (fun a b => a > b) left right)
  | .ge => some (compare (fun a b => a ≥ b) left right)
  | _ => none

/-- The rows of two texts. -/
def ofTexts (left right : ρ → Reading String) : InfixOp → Option (Compiled ρ)
  | .lt => some (compare (fun a b => a < b) left right)
  | .le => some (compare (fun a b => a ≤ b) left right)
  | .gt => some (compare (fun a b => a > b) left right)
  | .ge => some (compare (fun a b => a ≥ b) left right)
  | .like => some (compare Text.contains left right)
  | _ => none

/-- The rows of two truth values, of which `and` and `or` leave the right one alone when they can. -/
def ofBools (left right : ρ → Reading Bool) : InfixOp → Option (Compiled ρ)
  | .bitAnd => some (compare (· && ·) left right)
  | .bitOr => some (compare (· || ·) left right)
  | .and => some (.bool (unlessSettled false left right))
  | .or => some (.bool (unlessSettled true left right))
  | _ => none

/-- The row of an operator on two parts. Parts of different types have none, nor have arrays. -/
def row? (op : InfixOp) : (left right : Compiled ρ) → Option (Compiled ρ)
  | .number f, .number g => ofNumbers f g op
  | .text f, .text g => ofTexts f g op
  | .bool f, .bool g => ofBools f g op
  | _, _ => none

/-- An infix operator on two parts. Exclusive or is never compiled, a text makes addition a joining of
texts, and equality takes any two parts of one type. -/
def ofInfix (op : InfixOp) (left right : Compiled ρ) : Except Error (Compiled ρ) :=
  if op = .bitXor then .error (.notImplemented op.symbol)
  else if op = .add ∧ (left.kind = .text ∨ right.kind = .text) then
    .ok (.text (both (· ++ ·) left.display right.display))
  else if op = .eq then equality op false left right
  else if op = .ne then equality op true left right
  else
    match row? op left right with
    | some part => .ok part
    | none => .error (.unsupportedOperator op.symbol (typeNames left.kind right.kind))

end Compiled

/-! ## Compiling a tree -/

/-- What a binder gives for a name, if anything. -/
abbrev Binder (ρ : Type) := String → Option (Compiled ρ)

/-- The name of the record in the eyes of a binder. -/
def recordName : String := "s"

/-- What compiling has asked for: the names put to the binder, and the questions put to resolvers. -/
structure Requests where
  names : List String := []
  history : History := []
deriving DecidableEq, Repr

/-- A computation that may ask a binder and resolvers. -/
abbrev Compiling (α : Type) := Recorded Requests α

namespace Compiling

/-- Puts a name to the binder. -/
def askBinder {ρ : Type} (binder : Binder ρ) (name : String) : Compiling (Compiled ρ) := fun requests =>
  let requests := { requests with names := requests.names ++ [name] }
  match binder name with
  | some part => (.ok part, requests)
  | none => (.error (.unboundReference name), requests)

/-- Questions to resolvers on the way. -/
def ofAsking {α : Type} (x : Asking α) : Compiling α := fun requests =>
  let (outcome, history) := x requests.history
  (outcome, { requests with history })

end Compiling

/-- Compiles a tree whose arrays and calls stand in the scope. Both operands are compiled before the
operator is looked at. -/
def Tree.compile {ρ : Type} (scope : Scope) (binder : Binder ρ) : Tree → Compiling (Compiled ρ)
  | .reference name => Compiling.askBinder binder name
  | .literal value => pure (.constant value)
  | .array group => .constant <$> Compiling.ofAsking (scope.evaluate none (.array group))
  | .call name group => .constant <$> Compiling.ofAsking (scope.evaluate none (.call name group))
  | .unary op operand => do
    let x ← operand.compile scope binder
    Recorded.ofExcept (Compiled.ofPrefix op x)
  | .binary op left right => do
    let x ← left.compile scope binder
    let y ← right.compile scope binder
    Recorded.ofExcept (Compiled.ofInfix op x y)

/-! ## Predicates -/

/-- A compiled test of records. -/
structure Predicate (ρ : Type) where
  run : ρ → Reading Bool

namespace Predicate

variable {ρ : Type}

/-- Whether the record passes. -/
def test (p : Predicate ρ) (r : ρ) : Bool :=
  (p.run r).result

/-- The fields read by one test, in order. -/
def reads (p : Predicate ρ) (r : ρ) : List String :=
  (p.run r).fields

/-- The records that pass. -/
def filter (p : Predicate ρ) (records : List ρ) : List ρ :=
  List.filter p.test records

/-- A part that is a test. -/
def ofCompiled : Compiled ρ → Except Error (Predicate ρ)
  | .bool run => .ok { run }
  | x => .error (.notAPredicate x.kind.name)

/-- The test a tree stands for, its arrays and calls in the scope. -/
def ofTreeIn (scope : Scope) (binder : Binder ρ) (tree : Tree) : Compiling (Predicate ρ) := do
  let x ← tree.compile scope binder
  Recorded.ofExcept (ofCompiled x)

/-- The test a tree stands for by itself, without names and resolvers. -/
def ofTree (binder : Binder ρ) (tree : Tree) : Compiling (Predicate ρ) :=
  ofTreeIn {} binder tree

/-- The test an expression stands for, if there is one. -/
def ofExpression (binder : Binder ρ) (e : Option Expression) : Compiling (Predicate ρ) :=
  match e with
  | none => throw .missingExpression
  | some e => do
    let tree ← Recorded.ofExcept e.parse
    ofTreeIn e.scope binder tree

end Predicate

end Formula
