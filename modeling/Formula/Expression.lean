import Formula.Evaluation

/-! # Expressions

A text together with everything needed to evaluate it: the declared names, the case mode and the
resolvers.
-/

namespace Formula

/-- A text, the names it may use, and whoever answers for them. -/
structure Expression where
  text : String
  registry : Registry := {}
  mode : CaseMode := {}
  resolvers : List Resolver := []

namespace Expression

/-- A text without names and resolvers. -/
def ofText (text : String) (mode : CaseMode) : Expression :=
  { text, mode }

/-- Declares a variable. -/
def addVariable (e : Expression) (name : String) : Expression :=
  { e with registry := e.registry.addVariable name }

/-- Declares a constant and its value. -/
def addConstant (e : Expression) (name : String) (value : Value) : Expression :=
  { e with registry := e.registry.addConstant name value }

/-- Declares a function. -/
def addFunction (e : Expression) (name : String) : Expression :=
  { e with registry := e.registry.addFunction name }

/-- Adds a resolver behind the others. -/
def addResolver (e : Expression) (r : Resolver) : Expression :=
  { e with resolvers := e.resolvers ++ [r] }

/-- The scope of the text. It stands in no group. -/
def scope (e : Expression) : Scope where
  registry := e.registry
  mode := e.mode
  resolvers := e.resolvers

/-- The tree of the text. -/
def parse (e : Expression) : Except Error Tree :=
  e.scope.parse e.text

/-- The value of the text. -/
def evaluate (e : Expression) (id : Option Int) : Asking Value :=
  e.scope.evaluateText e.text id

end Expression

end Formula
