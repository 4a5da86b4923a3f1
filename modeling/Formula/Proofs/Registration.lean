import Formula.Proofs.Levels
import Mathlib.Data.List.Induction
import Mathlib.Data.List.Nodup

/-! # Registration

A registry is made by declarations, one after another. A constant that is declared again keeps its
place and changes its value, so the spelling found without regard to case is the one that came up
first, and the value found under it the one that came last. The parser asks only what a name means, so
the order of the declarations makes no difference to a text where no two constants differ in case only.
-/

namespace Formula

/-! ## Histories of declarations -/

/-- A declaration, as it is made. -/
inductive Declaration where
  | addVariable (name : String)
  | addConstant (name : String) (value : Value)
  | addFunction (name : String)
deriving DecidableEq, Repr

/-- The name and the value, if it is a constant that is declared. -/
def Declaration.constant? : Declaration → Option (String × Value)
  | .addConstant name value => some (name, value)
  | .addVariable _ | .addFunction _ => none

/-- The values given to constants, in order, each with the name it was given to. -/
def Declaration.given (declarations : List Declaration) : List (String × Value) :=
  declarations.filterMap constant?

/-- The last value given to exactly this name. -/
def Declaration.latest? (calls : List (String × Value)) (name : String) : Option Value :=
  (calls.filter fun call => call.1 = name).getLast?.map (·.2)

/-- The first name a value was given to that is this one up to case. -/
def Declaration.firstAlike? (calls : List (String × Value)) (name : String) : Option String :=
  (calls.map (·.1)).find? fun declared => Text.sameFolded declared name

namespace Registry

open Declaration (given latest? firstAlike?)

/-- The registry with one more declaration. -/
def declare (r : Registry) : Declaration → Registry
  | .addVariable name => r.addVariable name
  | .addConstant name value => r.addConstant name value
  | .addFunction name => r.addFunction name

/-- The registry the declarations make, one after another. -/
def ofDeclarations (declarations : List Declaration) : Registry :=
  declarations.foldl declare empty

variable {declarations : List Declaration} {entries calls : List (String × Value)}
  {name written : String}

theorem ofDeclarations_concat (declarations : List Declaration) (declaration : Declaration) :
    ofDeclarations (declarations ++ [declaration]) =
      (ofDeclarations declarations).declare declaration := by
  simp [ofDeclarations]

theorem mem_variableNames_ofDeclarations :
    name ∈ (ofDeclarations declarations).variableNames ↔ .addVariable name ∈ declarations := by
  induction declarations using List.reverseRecOn with
  | nil => simp [ofDeclarations, empty]
  | append_singleton declarations declaration ih =>
    rw [ofDeclarations_concat]
    cases declaration <;> simp [declare, addVariable, addConstant, addFunction, ih]

theorem mem_functionNames_ofDeclarations :
    name ∈ (ofDeclarations declarations).functionNames ↔ .addFunction name ∈ declarations := by
  induction declarations using List.reverseRecOn with
  | nil => simp [ofDeclarations, empty]
  | append_singleton declarations declaration ih =>
    rw [ofDeclarations_concat]
    cases declaration <;> simp [declare, addVariable, addConstant, addFunction, ih]

/-! ## The last value -/

theorem latest?_concat (calls : List (String × Value)) (name : String) (value : Value)
    (written : String) :
    latest? (calls ++ [(name, value)]) written =
      if name = written then some value else latest? calls written := by
  unfold latest?
  by_cases hname : name = written
  · simp [hname]
  · simp [hname]

theorem isSome_latest? :
    (latest? calls written).isSome = true ↔ written ∈ calls.map (·.1) := by
  induction calls using List.reverseRecOn with
  | nil => simp [latest?]
  | append_singleton calls call ih =>
    rw [latest?_concat, List.map_append, List.mem_append, ← ih]
    by_cases hname : call.1 = written
    · simp [hname]
    · simp [hname, Ne.symm hname]

/-! ## Putting a constant in its place -/

/-- A name keeps its place, and a new one comes behind the others. -/
theorem map_fst_put (name : String) (value : Value) (entries : List (String × Value)) :
    (put name value entries).map (·.1) =
      if name ∈ entries.map (·.1) then entries.map (·.1) else entries.map (·.1) ++ [name] := by
  induction entries with
  | nil => rfl
  | cons entry rest ih =>
    by_cases hname : entry.1 = name
    · simp [put, hname]
    · have hmem : name ∈ entry.1 :: rest.map (·.1) ↔ name ∈ rest.map (·.1) := by
        rw [List.mem_cons, or_iff_right (Ne.symm hname)]
      rw [put, if_neg hname, List.map_cons, List.map_cons, ih]
      simp only [hmem]
      split
      · rfl
      · rfl

/-- The name has the value, and other names have what they had. -/
theorem find?_put (name : String) (value : Value) (entries : List (String × Value))
    (written : String) :
    ((put name value entries).find? fun entry => entry.1 = written).map (·.2) =
      if name = written then some value
      else (entries.find? fun entry => entry.1 = written).map (·.2) := by
  induction entries with
  | nil => by_cases hwritten : name = written <;> simp [put, hwritten]
  | cons entry rest ih =>
    by_cases hname : entry.1 = name
    · by_cases hwritten : name = written <;> simp [put, hname, hwritten]
    · rw [put, if_neg hname, List.find?_cons, List.find?_cons]
      by_cases hwritten : entry.1 = written
      · have hother : name ≠ written := fun h => hname (hwritten.trans h.symm)
        simp [hwritten, hother]
      · simpa [hwritten] using ih

/-! ## What is stored -/

/-- The entries are what is left of the calls: every name once, in the place of its first call and with
the value of its last. -/
structure Stores (calls entries : List (String × Value)) : Prop where
  nodup : (entries.map (·.1)).Nodup
  first (p : String → Bool) : (entries.map (·.1)).find? p = (calls.map (·.1)).find? p
  last (written : String) :
    (entries.find? fun entry => entry.1 = written).map (·.2) = latest? calls written

theorem Stores.nil : Stores [] [] where
  nodup := List.nodup_nil
  first _ := rfl
  last _ := rfl

/-- One more call. -/
theorem Stores.put (h : Stores calls entries) (name : String) (value : Value) :
    Stores (calls ++ [(name, value)]) (put name value entries) where
  nodup := by
    rw [map_fst_put]
    split
    · exact h.nodup
    · rename_i hnew
      refine List.nodup_append.mpr ⟨h.nodup, by simp, ?_⟩
      intro old hold new hnew' heq
      rw [List.mem_singleton.mp hnew'] at heq
      exact hnew (heq ▸ hold)
  first p := by
    rw [map_fst_put, List.map_append, List.find?_append, ← h.first]
    split
    · rename_i hold
      cases hfound : (entries.map (·.1)).find? p with
      | some found => rfl
      | none =>
        have hp : ¬ p name = true := List.find?_eq_none.mp hfound name hold
        simp [hp]
    · rw [List.find?_append]
      rfl
  last written := by
    rw [find?_put, latest?_concat, h.last]

theorem stores_ofDeclarations (declarations : List Declaration) :
    Stores (given declarations) (ofDeclarations declarations).constants := by
  -- on the history from its end, as the registry is made
  induction declarations using List.reverseRecOn with
  | nil => exact Stores.nil
  | append_singleton declarations declaration ih =>
    rw [ofDeclarations_concat, given, List.filterMap_append]
    cases declaration with
    | addConstant name value => exact ih.put name value
    | addVariable name | addFunction name =>
      rw [show List.filterMap Declaration.constant? [_] = [] from rfl, List.append_nil]
      exact ih

/-! ## Looking up constants -/

/-- Where no name is stored twice, an entry is what is found under its name. -/
theorem find?_of_mem {entry : String × Value} (hnodup : (entries.map (·.1)).Nodup)
    (hentry : entry ∈ entries) : entries.find? (fun other => other.1 = entry.1) = some entry := by
  cases hfound : entries.find? fun other => other.1 = entry.1 with
  | none =>
    have hother := List.find?_eq_none.mp hfound entry hentry
    simp at hother
  | some found =>
    have hname : found.1 = entry.1 := by simpa using List.find?_some hfound
    rw [List.inj_on_of_nodup_map hnodup (List.mem_of_find?_eq_some hfound) hentry hname]

/-- An entry holds the last value that was given to its name. -/
theorem Stores.latest?_eq {entry : String × Value} (h : Stores calls entries)
    (hentry : entry ∈ entries) : latest? calls entry.1 = some entry.2 := by
  rw [← h.last, find?_of_mem h.nodup hentry]
  rfl

/-- The first entry with a name of some kind is that of the first such name, with its last value. -/
theorem Stores.find?_eq (h : Stores calls entries) (p : String → Bool) :
    (entries.find? fun entry => p entry.1).map (·.2) =
      ((calls.map (·.1)).find? p).bind (latest? calls) := by
  rw [← h.first, List.find?_map]
  show _ = ((entries.find? fun entry => p entry.1).map (·.1)).bind (latest? calls)
  cases hfound : entries.find? fun entry => p entry.1 with
  | none => rfl
  | some entry => exact (h.latest?_eq (List.mem_of_find?_eq_some hfound)).symm

theorem constant?_of_stores {r : Registry} (h : Stores calls r.constants) (mode : CaseMode)
    (name : String) :
    r.constant? mode name =
      (latest? calls name).or
        (if mode.exactConstants then none else (firstAlike? calls name).bind (latest? calls)) := by
  unfold constant?
  cases mode.exactConstants with
  | true => simp [namesMatch, h.last]
  | false =>
    have hmatching := h.find?_eq (Text.sameFolded · name)
    rw [Option.map_or, h.last]
    exact congrArg _ hmatching

/-- What a constant means after any declarations. A name has the last value that was given to exactly
this name, and if there is none, and case does not matter, the last one that was given to the name that
was declared first among those equal to it up to case. No name is stored twice, and it does not matter
whether case matters for variables and functions. -/
theorem constant?_ofDeclarations (declarations : List Declaration) :
    (∀ mode name, (ofDeclarations declarations).constant? mode name =
        (latest? (given declarations) name).or
          (if mode.exactConstants then none
            else (firstAlike? (given declarations) name).bind (latest? (given declarations)))) ∧
      ((ofDeclarations declarations).constants.map (·.1)).Nodup ∧
      ∀ mode exactVariables exactFunctions name,
        (ofDeclarations declarations).constant?
            { mode with exactVariables := exactVariables, exactFunctions := exactFunctions } name =
          (ofDeclarations declarations).constant? mode name := by
  have hstores := stores_ofDeclarations declarations
  refine ⟨constant?_of_stores hstores, hstores.nodup, ?_⟩
  intro mode exactVariables exactFunctions name
  rw [constant?_of_stores hstores, constant?_of_stores hstores]

/-- The name that came up first is the one that is found, with its last value. -/
example : (ofDeclarations [.addConstant "Rate" (.text "low"), .addConstant "RATE" (.text "high"),
    .addConstant "Rate" (.text "none")]).constant? .none "rate" = some (.text "none") := by
  decide

end Registry

/-! ## Histories that come to the same -/

/-- The same variables, functions and constants are declared, and the constants end with the same
values. The order may differ, and so may the number of times. -/
structure Declaration.Agree (declarations declarations' : List Declaration) : Prop where
  variable_iff (name : String) : .addVariable name ∈ declarations ↔ .addVariable name ∈ declarations'
  function_iff (name : String) : .addFunction name ∈ declarations ↔ .addFunction name ∈ declarations'
  latest?_eq (name : String) : latest? (given declarations) name = latest? (given declarations') name

/-- No two names that values were given to are equal up to case only. -/
def Declaration.Distinct (calls : List (String × Value)) : Prop :=
  ∀ name ∈ calls.map (·.1), ∀ name' ∈ calls.map (·.1),
    Text.sameFolded name name' = true → name = name'

namespace Registry

open Declaration (given latest? firstAlike?)

variable {declarations declarations' : List Declaration} {calls : List (String × Value)}
  {name declared : String}

/-- Among names that differ not only in case, the first one alike is the only one. -/
theorem firstAlike?_eq_some_iff (hdistinct : Declaration.Distinct calls) :
    firstAlike? calls name = some declared ↔
      declared ∈ calls.map (·.1) ∧ Text.sameFolded declared name = true := by
  unfold firstAlike?
  constructor
  · intro hfirst
    exact ⟨List.mem_of_find?_eq_some hfirst,
      List.find?_some (p := (Text.sameFolded · name)) hfirst⟩
  · rintro ⟨hdeclared, halike⟩
    cases hfound : (calls.map (·.1)).find? fun other => Text.sameFolded other name with
    | none => exact absurd halike (List.find?_eq_none.mp hfound declared hdeclared)
    | some found =>
      have hfoundAlike : Text.sameFolded name found = true := by
        rw [Text.sameFolded_comm]
        exact List.find?_some (p := (Text.sameFolded · name)) hfound
      have hsame : Text.sameFolded declared found = true :=
        @namesMatch_trans false declared name found halike hfoundAlike
      rw [hdistinct declared hdeclared found (List.mem_of_find?_eq_some hfound) hsame]

theorem mem_given_of_agree (h : Declaration.Agree declarations declarations') :
    name ∈ (given declarations).map (·.1) ↔ name ∈ (given declarations').map (·.1) := by
  rw [← isSome_latest?, ← isSome_latest?, h.latest?_eq]

theorem distinct_of_agree (h : Declaration.Agree declarations declarations')
    (hdistinct : Declaration.Distinct (given declarations)) :
    Declaration.Distinct (given declarations') := by
  intro name hname name' hname'
  exact hdistinct name ((mem_given_of_agree h).mpr hname) name' ((mem_given_of_agree h).mpr hname')

theorem constant?_of_agree (h : Declaration.Agree declarations declarations')
    (hdistinct : Declaration.Distinct (given declarations)) (mode : CaseMode) (name : String) :
    (ofDeclarations declarations).constant? mode name =
      (ofDeclarations declarations').constant? mode name := by
  have hlatest : latest? (given declarations) = latest? (given declarations') := funext h.latest?_eq
  have hfirst : firstAlike? (given declarations) name = firstAlike? (given declarations') name := by
    refine Option.ext fun declared => ?_
    rw [firstAlike?_eq_some_iff hdistinct, firstAlike?_eq_some_iff (distinct_of_agree h hdistinct),
      mem_given_of_agree h]
  rw [constant?_of_stores (stores_ofDeclarations declarations),
    constant?_of_stores (stores_ofDeclarations declarations'), hlatest, hfirst]

/-- Every name means the same after both histories. -/
theorem names_of_agree (h : Declaration.Agree declarations declarations')
    (hdistinct : Declaration.Distinct (given declarations)) (mode : CaseMode) :
    (ofDeclarations declarations).names mode = (ofDeclarations declarations').names mode := by
  have hvariable : (ofDeclarations declarations).hasVariable mode =
      (ofDeclarations declarations').hasVariable mode := by
    funext name
    rw [Bool.eq_iff_iff, hasVariable, hasVariable, List.any_eq_true, List.any_eq_true]
    simp only [mem_variableNames_ofDeclarations, h.variable_iff]
  have hfunction : (ofDeclarations declarations).hasFunction mode =
      (ofDeclarations declarations').hasFunction mode := by
    funext name
    rw [Bool.eq_iff_iff, hasFunction, hasFunction, List.any_eq_true, List.any_eq_true]
    simp only [mem_functionNames_ofDeclarations, h.function_iff]
  unfold names
  rw [funext (constant?_of_agree h hdistinct mode), hvariable, hfunction]

end Registry

namespace Scope

/-- Names mean the same in both scopes, and questions go to the same resolvers. -/
structure Agrees (scope scope' : Scope) : Prop where
  names : scope.registry.names scope.mode = scope'.registry.names scope'.mode
  resolvers : scope.resolvers = scope'.resolvers
  depth : scope.depth = scope'.depth

variable {scope scope' : Scope}

theorem Agrees.nested (h : scope.Agrees scope') : scope.nested.Agrees scope'.nested :=
  ⟨h.names, h.resolvers, congrArg (· + 1) h.depth⟩

theorem Agrees.parse (h : scope.Agrees scope') (text : String) :
    scope.parse text = scope'.parse text := by
  unfold Scope.parse
  rw [h.names, h.depth]

theorem Agrees.ask (h : scope.Agrees scope') (q : Question) (unresolved : Error) :
    scope.ask q unresolved = scope'.ask q unresolved := by
  unfold Scope.ask
  rw [h.resolvers]

theorem Agrees.evaluateTextWith (h : scope.Agrees scope')
    {elements elements' : Group → Asking (List Value)}
    (helements : ∀ group, elements group = elements' group) (id : Option Int) (text : String) :
    scope.evaluateTextWith elements id text = scope'.evaluateTextWith elements' id text := by
  have htree : ∀ tree,
      scope.evaluateWith elements id tree = scope'.evaluateWith elements' id tree := by
    intro tree
    exact (Recorded.Comparison.equality History).evaluateWith h.ask fun group _ => helements group
  unfold Scope.evaluateTextWith
  rw [h.parse, funext htree]

/-- Nothing of a registry comes into an evaluation but what its names mean. -/
theorem Agrees.evaluateText (h : scope.Agrees scope') (text : String) (id : Option Int) :
    scope.evaluateText text id = scope'.evaluateText text id := by
  refine (Recorded.Comparison.equality History).evaluateText Agrees ?_ ?_ h text id
  · exact fun _ _ h => h.nested
  · intro scope scope' elements elements' h helements id text
    exact h.evaluateTextWith helements id text

/-- The scope with the registry the declarations make. -/
def declaring (scope : Scope) (declarations : List Declaration) : Scope :=
  { scope with registry := .ofDeclarations declarations }

/-- The order of declarations does not matter, nor how often they are made, as long as the same names
are declared in the end, the constants have the same values, and no two of these differ in case only.
Every text has the same tree after both histories, and the same value or error, by way of the same
questions. -/
theorem evaluateText_declaring {declarations declarations' : List Declaration}
    (h : Declaration.Agree declarations declarations')
    (hdistinct : Declaration.Distinct (Declaration.given declarations)) (scope : Scope) :
    (∀ text, (scope.declaring declarations).parse text = (scope.declaring declarations').parse text) ∧
      ∀ text id history, (scope.declaring declarations).evaluateText text id history =
        (scope.declaring declarations').evaluateText text id history := by
  have hagrees : (scope.declaring declarations).Agrees (scope.declaring declarations') :=
    ⟨Registry.names_of_agree h hdistinct scope.mode, rfl, rfl⟩
  refine ⟨hagrees.parse, ?_⟩
  intro text id history
  rw [hagrees.evaluateText]

/-- A history with a constant that is declared twice. -/
def rateHistory : List Declaration :=
  [.addConstant "Rate" (.text "low"), .addVariable "flag", .addFunction "First",
    .addConstant "Base" (.text "net"), .addConstant "Rate" (.text "high")]

/-- The same names in another order, some of them more often. -/
def rateHistory' : List Declaration :=
  [.addFunction "First", .addConstant "Base" (.text "net"), .addFunction "First",
    .addConstant "Rate" (.text "high"), .addVariable "flag", .addVariable "flag"]

/-- A scope in which case does not matter, with resolvers for the names of the histories. -/
def rateScope : Scope where
  resolvers := [.ofVariables 0 fun _ _ => some (.bool true),
    .ofFunctions 1 fun _ arguments _ => arguments.head?]

theorem evaluateText_declaring_rate :
    Declaration.Agree rateHistory rateHistory' ∧
      Declaration.Distinct (Declaration.given rateHistory) ∧
      (rateScope.declaring rateHistory).evaluateText "first(RATE, flag) + base" none [] =
        (rateScope.declaring rateHistory').evaluateText "first(RATE, flag) + base" none [] ∧
      ((rateScope.declaring rateHistory').evaluateText "first(RATE, flag) + base" none []).1 =
        .ok (.text "highnet") := by
  have hagree : Declaration.Agree rateHistory rateHistory' := by
    refine ⟨fun name => ?_, fun name => ?_, fun name => ?_⟩
    · simp [rateHistory, rateHistory']
    · simp [rateHistory, rateHistory']
    · by_cases hrate : "Rate" = name
      · subst hrate
        decide
      · by_cases hbase : "Base" = name
        · subst hbase
          decide
        · show Declaration.latest?
              [("Rate", .text "low"), ("Base", .text "net"), ("Rate", .text "high")] name =
            Declaration.latest? [("Base", .text "net"), ("Rate", .text "high")] name
          simp [Declaration.latest?, hrate, hbase]
  have hdistinct : Declaration.Distinct (Declaration.given rateHistory) := by
    unfold Declaration.Distinct
    decide
  exact ⟨hagree, hdistinct, (evaluateText_declaring hagree hdistinct rateScope).2 _ _ _,
    by decide +kernel⟩

end Scope

end Formula
