import Formula.Proofs.Comparison
import Formula.Proofs.Tree.Lockstep

/-! # Levels of groups

A text that stands in as many groups as there may be is parsed into a tree without groups. So the
number of levels evaluation is given does not matter, as long as it is enough for all the groups that
can still be parsed, and the segments of a group evaluate as texts of their own.
-/

namespace Formula

/-! ## Trees without groups -/

/-- Compares a parser, deep inside groups, with itself: its trees hold no group. -/
def Parser.Comparison.ungrouped {depth : Nat} (hdepth : groupLimit ≤ depth) :
    Comparison depth :=
  strict (fun t _ => t.groups = []) (fun h => by rw [h]; rfl)
    (fun hroom _ => absurd hdepth (Nat.not_le.mpr hroom)) (fun _ _ _ h => h)
    fun _ _ _ _ _ hleft hright => by simp [Tree.groups, hleft, hright]

/-- No group is left in a tree that was parsed as deep as groups go. -/
theorem Scope.groups_of_parse {scope : Scope} {text : String} {tree : Tree}
    (hdepth : groupLimit ≤ scope.depth) (h : scope.parse text = .ok tree) : tree.groups = [] := by
  have hname : ∀ turns token s, (Parser.Comparison.ungrouped hdepth).InStep
      (Parser.name ⟨scope.registry.names scope.mode, scope.depth, turns⟩ token)
      (Parser.name ⟨scope.registry.names scope.mode, scope.depth, turns⟩ token) s := by
    intro turns token s
    refine Parser.Comparison.inStep_self (Parser.meets_name (fun _ => rfl) ?_ ?_)
    · intro opening _ _ _
      refine Parser.meets_map (Parser.meets_group (fun _ => trivial) (fun _ _ _ => trivial) ?_)
      intro hroom
      exact absurd hdepth (Nat.not_le.mpr hroom)
    · exact Parser.meets_nameAlone (fun _ _ => rfl) (fun _ => rfl) (fun _ => trivial) trivial
  have hself := Parser.parse_inStep (Parser.Comparison.ungrouped hdepth) (Or.inl rfl) hname text
  rw [Scope.parse] at h
  rw [h] at hself
  obtain ⟨_, _, hgroups⟩ := hself
  exact hgroups

/-! ## Enough levels -/

/-- Compares computations that are the same. -/
def Recorded.Comparison.equality (σ : Type) : Comparison σ where
  Holds x y := x = y
  ofExcept _ := rfl
  bind hx hf := by rw [hx, funext hf]
  shifted _ hx := by rw [hx]

/-- Argument lists are made of the values of their segments only. -/
theorem splitArguments_congr {σ : Type} {evaluate evaluate' : String → Option Int → Recorded σ Value}
    {id : Option Int} (h : ∀ text, evaluate text id = evaluate' text id) (raw : Option String) :
    splitArguments evaluate id raw = splitArguments evaluate' id raw :=
  Recorded.Comparison.splitArguments (Recorded.Comparison.equality σ) h raw

namespace Scope

variable {scope : Scope} {id : Option Int}

/-- The value of a tree depends on the elements of the groups in it only. -/
theorem evaluateWith_congr {elements elements' : Group → Asking (List Value)} {tree : Tree}
    (h : ∀ group ∈ tree.groups, elements group = elements' group) :
    scope.evaluateWith elements id tree = scope.evaluateWith elements' id tree :=
  Recorded.Comparison.evaluateWith (.equality History) (fun _ _ => rfl) h

/-- Numbers of levels that are enough for the groups in a text make no difference to its value. -/
theorem evaluateTextWithin_eq {levels levels' : Nat} (hlevels : groupLimit ≤ scope.depth + levels)
    (hlevels' : groupLimit ≤ scope.depth + levels') (text : String) :
    scope.evaluateTextWithin levels text id = scope.evaluateTextWithin levels' text id := by
  -- on the levels: a text that still holds groups has a level for them on either side
  induction levels generalizing levels' scope text with
  | zero =>
    unfold evaluateTextWithin evaluateTextWith
    cases htree : scope.parse text with
    | error e => rfl
    | ok tree =>
      refine evaluateWith_congr ?_
      intro group hgroup
      rw [groups_of_parse hlevels htree] at hgroup
      exact absurd hgroup List.not_mem_nil
  | succ levels ih =>
    unfold evaluateTextWithin evaluateTextWith
    cases htree : scope.parse text with
    | error e => rfl
    | ok tree =>
      refine evaluateWith_congr ?_
      intro group hgroup
      have hroom : scope.depth < groupLimit := by
        refine Nat.lt_of_not_le fun hdepth => ?_
        rw [groups_of_parse hdepth htree] at hgroup
        exact List.not_mem_nil hgroup
      have hdepth : scope.nested.depth = scope.depth + 1 := rfl
      obtain ⟨levels', rfl⟩ : ∃ n, levels' = n + 1 := ⟨levels' - 1, by omega⟩
      have htexts : ∀ text, scope.nested.evaluateTextWithin levels text id =
          scope.nested.evaluateTextWithin levels' text id := by
        intro text
        exact ih (by omega) (by omega) text
      rw [elements_succ, elements_succ]
      exact congrArg (Recorded.shifted group.offset)
        (splitArguments_congr htexts (some group.text))

/-- The elements of a group are its segments, evaluated in the nested scope as texts of their own. -/
theorem evaluateGroup_eq (group : Group) :
    scope.evaluateGroup id group =
      (splitArguments scope.nested.evaluateText id (some group.text)).shifted group.offset := by
  have hdepth : scope.nested.depth = scope.depth + 1 := rfl
  have henough : groupLimit ≤ scope.nested.depth + (groupLimit - 1) := by omega
  have htext : ∀ text, scope.nested.evaluateTextWithin (groupLimit - 1) text id =
      scope.nested.evaluateText text id := by
    intro text
    exact evaluateTextWithin_eq henough (Nat.le_add_left _ _) text
  exact congrArg (Recorded.shifted group.offset) (splitArguments_congr htext (some group.text))

end Scope

end Formula
