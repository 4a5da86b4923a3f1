import Formula.Proofs.Constants
import Formula.Proofs.Likeness
import Formula.Proofs.Token.Case

/-! # Letter case

In the mode that has no regard to case, two texts that differ in the case of letters outside quotes
have the same tokens in other letters, and so trees of one shape; or the same error at the same place.
The raw texts of groups are folded where the text around them is, so this goes on at every level, and
with resolvers that have no regard to case either the texts have the same value.
-/

namespace Formula

/-- The text with every ASCII capital outside quotes made small. -/
def Text.foldUnquoted (s : String) : List Char :=
  Nesting.top.fold s.toList

/-! ## Tokens -/

namespace Cursor

/-- The cursors stand at one place of texts that differ in the case of letters outside quotes. -/
structure SameCase (c c' : Cursor) : Prop where
  rest_eq : Nesting.top.fold c.rest = Nesting.top.fold c'.rest
  position_eq : c.position = c'.position

variable {c c' c₁ c₁' : Cursor}

theorem SameCase.skipBlanks (h : SameCase c c') : SameCase c.skipBlanks c'.skipBlanks := by
  obtain ⟨htake, hdrop⟩ := Nesting.takeWhile_fold Text.isBlank_toLower (by decide) c.rest
  obtain ⟨htake', hdrop'⟩ := Nesting.takeWhile_fold Text.isBlank_toLower (by decide) c'.rest
  rw [h.rest_eq] at htake hdrop
  constructor
  · exact hdrop.symm.trans hdrop'
  · have hlength := congrArg List.length (htake.symm.trans htake')
    rw [List.length_map, List.length_map] at hlength
    show c.position + _ = c'.position + _
    rw [h.position_eq, hlength]

/-- The names differ in the case of their letters. -/
abbrev SameName (name name' : String) : Prop :=
  Text.fold name = Text.fold name'

/-- The texts of two lexemes of one kind. -/
theorem fold_textOf {kind : Token.Kind} {lexeme lexeme' : List Char}
    (hlexeme : lexeme.map Char.toLower = lexeme'.map Char.toLower)
    (hstring : kind = .string → lexeme = lexeme') :
    SameName (kind.textOf lexeme) (kind.textOf lexeme') := by
  have hfold : Text.fold (String.ofList lexeme) = Text.fold (String.ofList lexeme') := by
    rw [Text.fold, Text.fold, String.toList_ofList, String.toList_ofList, hlexeme]
  cases kind with
  | string => rw [hstring rfl]
  | _ => exact hfold

/-- What calls of `next` have in common: both texts have ended, or a token is found in both, or a
fault, at one place and in other letters. -/
inductive FoundAlike : Except Error (Option Token) × Cursor → Except Error (Option Token) × Cursor →
    Prop where
  | ended {c c' : Cursor} (h : SameCase c c') : FoundAlike (.ok none, c) (.ok none, c')
  | token {c c' : Cursor} {token token' : Token} (halike : token.Alike SameName True token')
      (h : SameCase c c') : FoundAlike (.ok (some token), c) (.ok (some token'), c')
  | fault {c c' : Cursor} {e e' : Error} (h : e'.lowered = e.lowered) :
      FoundAlike (.error e, c) (.error e', c')

theorem foundAlike_of_scans {first first' : Char} {others others' : List Char}
    (hplace : c.skipBlanks.position = c'.skipBlanks.position)
    (hrest : c.skipBlanks.rest = first :: others) (hrest' : c'.skipBlanks.rest = first' :: others')
    (h : Scan.SameCase (Scan.ofChar first others) (Scan.ofChar first' others')) :
    FoundAlike c.next c'.next := by
  rcases hscan : Scan.ofChar first others with ⟨outcome, lexeme, rest⟩
  rcases hscan' : Scan.ofChar first' others' with ⟨outcome', lexeme', rest'⟩
  rw [hscan, hscan'] at h
  obtain ⟨houtcome, hlexeme, hverbatim, hbehind⟩ := h
  have hlength : lexeme.length = lexeme'.length := by
    simpa using congrArg List.length hlexeme
  cases outcome with
  | ok kind =>
    cases outcome' with
    | error fault' => cases houtcome
    | ok kind' =>
      obtain rfl : kind = kind' := Except.ok.inj houtcome
      have hstring : kind = .string → lexeme = lexeme' := fun hkind =>
        hverbatim (congrArg Except.ok hkind)
      rw [next_of_ok hrest hscan, next_of_ok hrest' hscan', hplace, hlength]
      refine .token ⟨rfl, fold_textOf hlexeme hstring, ?_, fun _ => ⟨rfl, rfl⟩⟩ ⟨hbehind, rfl⟩
      intro hkind
      exact congrArg kind.textOf (hstring hkind)
  | error fault =>
    cases outcome' with
    | ok kind' => cases houtcome
    | error fault' =>
      have hfault : fault.lowered = fault'.lowered := Except.error.inj houtcome
      rw [next_of_error hrest hscan, next_of_error hrest' hscan', hplace, hlength]
      exact .fault (by rw [Error.lowered, Error.lowered, hfault])

/-- The texts have ended, or the same token is found in both, or the same fault. -/
theorem SameCase.next (h : SameCase c c') : FoundAlike c.next c'.next := by
  have hstart := h.skipBlanks
  have hfold := hstart.rest_eq
  cases hrest : c.skipBlanks.rest with
  | nil =>
    cases hrest' : c'.skipBlanks.rest with
    | nil =>
      rw [next_of_nil hrest, next_of_nil hrest']
      exact .ended hstart
    | cons first' others' =>
      rw [hrest, hrest'] at hfold
      cases hfold
  | cons first others =>
    cases hrest' : c'.skipBlanks.rest with
    | nil =>
      rw [hrest, hrest'] at hfold
      cases hfold
    | cons first' others' =>
      rw [hrest, hrest'] at hfold
      exact foundAlike_of_scans hstart.position_eq hrest hrest' (Scan.ofChar_sameCase hfold)

/-! ## Groups -/

/-- The group of a folded text is that of the text, folded. -/
theorem untilClosed_fold {opening : Char} {t : Nesting} (hstart : 0 ≤ t.depth opening)
    (cs : List Char) :
    untilClosed opening t (t.fold cs) =
      (untilClosed opening t cs).map fun taken => (t.fold taken.1, Nesting.top.fold taken.2) := by
  induction cs generalizing t with
  | nil => rfl
  | cons c cs ih =>
    simp only [Nesting.fold, untilClosed, Nesting.advance_foldChar]
    split
    · rename_i hclosed
      have hunquoted : (t.advance c).quoted = Nesting.top.quoted :=
        quoted_of_depth_lt hstart hclosed
      rw [Nesting.fold_congr hunquoted]
      rfl
    · rename_i hopen
      rw [ih (Int.not_lt.mp hopen), Option.map_map, Option.map_map]
      rfl

/-- Groups are captured where they are, in other letters. -/
theorem untilClosed_of_fold_eq {opening : Char} {cs cs' inside rest : List Char}
    (h : Nesting.top.fold cs = Nesting.top.fold cs')
    (hclosed : untilClosed opening .top cs = some (inside, rest)) :
    ∃ inside' rest', untilClosed opening .top cs' = some (inside', rest') ∧
      Nesting.top.fold inside = Nesting.top.fold inside' ∧
      Nesting.top.fold rest = Nesting.top.fold rest' := by
  have hfold := untilClosed_fold (Nesting.depth_top opening) cs
  rw [hclosed, h, untilClosed_fold (Nesting.depth_top opening) cs'] at hfold
  obtain ⟨⟨inside', rest'⟩, hclosed', heq⟩ := Option.map_eq_some_iff.mp hfold
  simp only [Prod.mk.injEq] at heq
  exact ⟨inside', rest', hclosed', heq.1.symm, heq.2.symm⟩

end Cursor

/-- The groups stand at one place, and their texts differ in the case of letters outside quotes. -/
def Group.SameCase (group group' : Group) : Prop :=
  Text.foldUnquoted group.text = Text.foldUnquoted group'.text ∧ group.offset = group'.offset

namespace Cursor

variable {c c' c₁ : Cursor} {opening : Char} {openedAt : Nat}

theorem SameCase.takeGroup {text : String} {offset : Nat} (h : SameCase c c')
    (htake : c.takeGroup opening openedAt = (.ok (text, offset), c₁)) (openedAt' : Nat) :
    ∃ text' offset' c₁', c'.takeGroup opening openedAt' = (.ok (text', offset'), c₁') ∧
      Group.SameCase ⟨text, offset⟩ ⟨text', offset'⟩ ∧ SameCase c₁ c₁' := by
  obtain ⟨hclosed, hoffset, hbehind⟩ := untilClosed_of_takeGroup htake
  obtain ⟨inside', rest', hclosed', hinside, hrest⟩ := untilClosed_of_fold_eq h.rest_eq hclosed
  have hlength : text.toList.length = inside'.length := by
    rw [← Nesting.length_fold .top text.toList, hinside, Nesting.length_fold]
  refine ⟨_, _, _, takeGroup_of_untilClosed hclosed' openedAt', ⟨?_, ?_⟩, ⟨hrest, ?_⟩⟩
  · show Nesting.top.fold text.toList = Nesting.top.fold (String.ofList inside').toList
    rw [String.toList_ofList, hinside]
  · exact hoffset.trans h.position_eq
  · rw [hbehind, hlength, h.position_eq]

theorem SameCase.takeGroup_error {e : Error} (h : SameCase c c')
    (htake : c.takeGroup opening openedAt = (.error e, c₁)) :
    ∃ c₁', c'.takeGroup opening openedAt = (.error e, c₁') := by
  unfold Cursor.takeGroup at htake
  split at htake
  · cases htake
  · rename_i hopen
    cases htake
    cases hclosed' : untilClosed opening .top c'.rest with
    | some taken' =>
      obtain ⟨_, _, hclosed, -⟩ := untilClosed_of_fold_eq h.rest_eq.symm hclosed'
      cases hopen.symm.trans hclosed
    | none =>
      unfold Cursor.takeGroup
      rw [hclosed']
      exact ⟨_, rfl⟩

end Cursor

/-! ## Segments -/

namespace Segment

/-- The pieces of a folded list are those of the list, folded. -/
theorem cut_fold (t : Nesting) (cs : List Char) :
    ∃ piece pieces, cut t cs = piece :: pieces ∧
      cut t (t.fold cs) = t.fold piece :: pieces.map Nesting.top.fold := by
  induction cs generalizing t with
  | nil => exact ⟨[], [], rfl, rfl⟩
  | cons c cs ih =>
    have hseparator : t.foldChar c = separator ↔ c = separator :=
      Nesting.foldChar_eq_iff (by decide)
    simp only [Nesting.fold, cut, Nesting.advance_foldChar, hseparator]
    obtain ⟨piece, pieces, hcut, hfold⟩ := ih (t.advance c)
    rw [hcut, hfold]
    split
    · rename_i hseparates
      rw [Nesting.eq_top_of_isTop hseparates.2]
      exact ⟨[], piece :: pieces, rfl, rfl⟩
    · exact ⟨c :: piece, pieces, rfl, rfl⟩

theorem forall₂_cut {cs cs' : List Char} (h : Nesting.top.fold cs = Nesting.top.fold cs') :
    List.Forall₂ (fun piece piece' => Nesting.top.fold piece = Nesting.top.fold piece')
      (cut .top cs) (cut .top cs') := by
  obtain ⟨piece, pieces, hcut, hfold⟩ := cut_fold .top cs
  obtain ⟨piece', pieces', hcut', hfold'⟩ := cut_fold .top cs'
  have hmap : (cut .top cs).map Nesting.top.fold = (cut .top cs').map Nesting.top.fold := by
    rw [hcut, hcut', List.map_cons, List.map_cons, ← hfold, ← hfold', h]
  rw [← List.forall₂_map_right_iff, ← List.forall₂_map_left_iff, hmap]
  exact List.forall₂_same.mpr fun _ _ => rfl

/-- Lists in other letters have the same segments in other letters. -/
theorem all_of_foldUnquoted_eq {raw raw' : String}
    (h : Text.foldUnquoted raw = Text.foldUnquoted raw') :
    List.Forall₂ (fun segment segment' : Segment =>
      Text.foldUnquoted segment.text = Text.foldUnquoted segment'.text ∧
        segment.start = segment'.start) (all raw) (all raw') := by
  have hlength : ∀ {cs cs' : List Char}, Nesting.top.fold cs = Nesting.top.fold cs' →
      cs.length = cs'.length := by
    intro cs cs' hfold
    rw [← Nesting.length_fold .top cs, hfold, Nesting.length_fold]
  have hempty : raw.isEmpty = raw'.isEmpty := by
    rw [Bool.eq_iff_iff, String.isEmpty_iff, String.isEmpty_iff, ← String.toList_eq_nil_iff,
      ← String.toList_eq_nil_iff, ← List.length_eq_zero_iff, ← List.length_eq_zero_iff, hlength h]
  have hstart : ∀ {piece piece' : List Char} {start start' : Nat},
      Nesting.top.fold piece = Nesting.top.fold piece' → start = start' →
        start + piece.length + 1 = start' + piece'.length + 1 := by
    intro piece piece' start start' hpiece hstart
    rw [hstart, hlength hpiece]
  unfold all
  rw [hempty]
  split
  · exact .nil
  · exact forall₂_place hstart (forall₂_cut h) 0 0 rfl

end Segment

/-! ## Names -/

theorem namesMatch_congr {name name' : String} (h : Text.fold name = Text.fold name')
    (declared : String) : namesMatch false declared name = namesMatch false declared name' := by
  simp [namesMatch, Text.sameFolded, h]

namespace Registry

variable {r : Registry} {name name' : String}

/-- Among constants with different names at most one is found, in whatever case it is written. -/
theorem constant?_congr
    (hconstants : r.constants.Pairwise fun a b => Text.sameFolded a.1 b.1 = false)
    (h : Text.fold name = Text.fold name') :
    r.constant? CaseMode.none name = r.constant? CaseMode.none name' := by
  have hsame := namesMatch_congr h.symm
  by_cases hfound : ∃ entry ∈ r.constants, namesMatch false entry.1 name = true
  · obtain ⟨⟨declared, value⟩, hentry, hname⟩ := hfound
    obtain ⟨before, after, hsplit⟩ := List.append_of_mem hentry
    have hothers : ∀ entry ∈ before ++ after, namesMatch false entry.1 name = false := by
      rw [hsplit, List.pairwise_append, List.pairwise_cons] at hconstants
      obtain ⟨-, ⟨hafter, -⟩, hbefore⟩ := hconstants
      intro entry hother
      rw [Bool.eq_false_iff]
      intro hmatch
      rw [namesMatch_comm] at hmatch
      have hdeclared : Text.sameFolded declared entry.1 = true := namesMatch_trans hname hmatch
      rcases List.mem_append.mp hother with hother | hother
      · have hdifferent := hbefore entry hother (declared, value) List.mem_cons_self
        rw [Text.sameFolded_comm, hdeclared] at hdifferent
        cases hdifferent
      · have hdifferent := hafter entry hother
        rw [hdeclared] at hdifferent
        cases hdifferent
    have hothers' : ∀ entry ∈ before ++ after, namesMatch false entry.1 name' = false := by
      intro entry hother
      rw [hsame]
      exact hothers entry hother
    rw [@constant?_eq_some .none r _ _ _ name _ hsplit hothers hname,
      @constant?_eq_some .none r _ _ _ name' _ hsplit hothers' ((hsame declared).trans hname)]
  · have hnone : ∀ entry ∈ r.constants, namesMatch false entry.1 name = false := by
      intro entry hentry
      rw [Bool.eq_false_iff]
      exact fun hmatch => hfound ⟨entry, hentry, hmatch⟩
    have hnone' : ∀ entry ∈ r.constants, namesMatch false entry.1 name' = false := by
      intro entry hentry
      rw [hsame]
      exact hnone entry hentry
    rw [@constant?_eq_none .none r name hnone, @constant?_eq_none .none r name' hnone']

theorem hasVariable_congr (h : Text.fold name = Text.fold name') :
    r.hasVariable CaseMode.none name = r.hasVariable CaseMode.none name' :=
  congrArg r.variableNames.any (funext (namesMatch_congr h))

theorem hasFunction_congr (h : Text.fold name = Text.fold name') :
    r.hasFunction CaseMode.none name = r.hasFunction CaseMode.none name' :=
  congrArg r.functionNames.any (funext (namesMatch_congr h))

end Registry

/-! ## Trees -/

/-- Compares the parser on two texts that differ in the case of letters outside quotes. -/
def Parser.Pairing.sameCase {r : Registry}
    (hconstants : r.constants.Pairwise fun a b => Text.sameFolded a.1 b.1 = false) :
    Parser.Pairing (r.names CaseMode.none) where
  Strict := True
  SameName := Cursor.SameName
  SameGroup := Group.SameCase
  Near := Cursor.SameCase
  Ended _ := False
  indistinct := ⟨id, Registry.constant?_congr hconstants, Registry.hasVariable_congr,
    Registry.hasFunction_congr⟩
  loose := False.elim
  position_eq _ h := h.position_eq
  next_ok := by
    intro c c' c₁ ahead h hnext
    have hfound := h.next
    rw [hnext] at hfound
    generalize c'.next = found at hfound
    cases hfound with
    | ended hbehind => exact ⟨_, _, rfl, .none, fun _ => hbehind⟩
    | token halike hbehind => exact ⟨_, _, rfl, .token halike, fun _ => hbehind⟩
  next_error := by
    intro c c' c₁ e _ h hnext
    have hfound := h.next
    rw [hnext] at hfound
    generalize c'.next = found at hfound
    cases hfound with
    | fault hlowered => exact ⟨_, _, rfl, hlowered⟩
  takeGroup_ok := by
    intro c c' c₁ c₁' c₂ token token' opening openedAt offset text h hnext hnext' _ htake
    have hfound := h.next
    rw [hnext, hnext'] at hfound
    cases hfound with
    | token _ hbehind => exact hbehind.takeGroup htake
  takeGroup_error _ h := h.takeGroup_error

/-! ## Values -/

/-- Both ended well, with what corresponds, or both failed, with errors that differ in the case of
what they quote at most. -/
inductive SameEnd {α α' : Type} (Result : α → α' → Prop) : Except Error α → Except Error α' → Prop where
  | ok {a : α} {a' : α'} (h : Result a a') : SameEnd Result (.ok a) (.ok a')
  | error {e e' : Error} (h : e.lowered = e'.lowered) : SameEnd Result (.error e) (.error e')

theorem SameEnd.of_ends {α α' : Type} {Result : α → α' → Prop} {outcome : Except Error α}
    {outcome' : Except Error α'}
    (h : Parser.Ends outcome (fun a => ∃ a', outcome' = .ok a' ∧ Result a a')
      fun e => ∃ e', outcome' = .error e' ∧ e'.lowered = e.lowered) :
    SameEnd Result outcome outcome' := by
  cases outcome with
  | ok a =>
    obtain ⟨a', rfl, hresult⟩ := h
    exact .ok hresult
  | error e =>
    obtain ⟨e', rfl, hlowered⟩ := h
    exact .error hlowered.symm

theorem Error.lowered_shifted (e : Error) (distance : Nat) :
    (e.shifted distance).lowered = e.lowered.shifted distance := by
  cases e <;> rfl

theorem SameEnd.refl {α : Type} (outcome : Except Error α) : SameEnd (· = ·) outcome outcome := by
  cases outcome with
  | error e => exact .error rfl
  | ok a => exact .ok rfl

theorem SameEnd.shifted {α α' : Type} {Result : α → α' → Prop} {outcome : Except Error α}
    {outcome' : Except Error α'} (h : SameEnd Result outcome outcome') (distance : Nat) :
    SameEnd Result (outcome.mapError (·.shifted distance)) (outcome'.mapError (·.shifted distance)) := by
  cases h with
  | ok h => exact .ok h
  | error h => exact .error (by rw [Error.lowered_shifted, Error.lowered_shifted, h])

/-- Compares computations by how they end, up to the case of what their errors quote. -/
def Recorded.Comparison.upToCase (σ : Type) : Recorded.Comparison σ where
  Holds x y := ∀ r r', SameEnd (· = ·) (x r).1 (y r').1
  ofExcept x _ _ := SameEnd.refl x
  bind := by
    intro α β x y f g hx hf r r'
    have hsame := hx r r'
    rcases hr : x r with ⟨ended, s⟩
    rcases hr' : y r' with ⟨ended', s'⟩
    rw [hr, hr'] at hsame
    cases hsame with
    | error h =>
      rw [bind_of_error hr, bind_of_error hr']
      exact .error h
    | ok h =>
      subst h
      rw [bind_of_ok hr, bind_of_ok hr']
      exact hf _ s s'
  shifted := by
    intro α x y distance hx r r'
    rw [shifted_apply_fst, shifted_apply_fst]
    exact (hx r r').shifted distance

namespace Resolver

/-- The resolver has no regard to the case of names. -/
def IgnoresCase (r : Resolver) : Prop :=
  ∀ history name name', Text.sameFolded name name' = true →
    (∀ id, r.answer history (.lookup name id) = r.answer history (.lookup name' id)) ∧
      ∀ arguments id, r.answer history (.call name arguments id) =
        r.answer history (.call name' arguments id)

end Resolver

namespace Scope

variable {scope : Scope} {id : Option Int} {text text' : String}

theorem ask_upToCase {q q' : Question} {unresolved unresolved' : Error} (hpure : scope.IsPure)
    (hsame : ∀ r ∈ scope.resolvers, ∀ history, r.answer history q = r.answer history q')
    (hlowered : unresolved.lowered = unresolved'.lowered) :
    (Recorded.Comparison.upToCase History).Holds (scope.ask q unresolved)
      (scope.ask q' unresolved') := by
  intro history history'
  rw [ask_fst, ask_fst, Resolver.ask_eq_of_answers hpure hsame history history']
  cases (Resolver.ask q' scope.resolvers history').1 with
  | some value => exact .ok rfl
  | none => exact .error hlowered

/-- A scope that has no regard to case, with constants that are different without. -/
structure Caseless (scope : Scope) : Prop where
  mode_eq : scope.mode = CaseMode.none
  constants : scope.registry.constants.Pairwise fun a b => Text.sameFolded a.1 b.1 = false

theorem Caseless.nested (h : scope.Caseless) : scope.nested.Caseless :=
  ⟨h.mode_eq, h.constants⟩

/-- Texts that differ in the case of letters outside quotes have trees that do, or fail alike. -/
theorem Caseless.parse (h : scope.Caseless)
    (htext : Text.foldUnquoted text = Text.foldUnquoted text') :
    Parser.Ends (scope.parse text)
      (fun tree => ∃ tree', scope.parse text' = .ok tree' ∧
        tree.Alike Cursor.SameName Group.SameCase tree')
      fun e => ∃ e', scope.parse text' = .error e' ∧ e'.lowered = e.lowered := by
  have hnear : Cursor.SameCase (Cursor.ofText text) (Cursor.ofText text') := ⟨htext, rfl⟩
  have hparse := @Parser.Pairing.parse_together _ (.sameCase h.constants) scope.depth text text'
    (fun _ => not_false) hnear
  unfold Scope.parse
  rw [h.mode_eq]
  exact hparse.mono (fun _ hsame => hsame) fun _ hfails => hfails trivial

/-- So do their values, if the resolvers have no regard to case either. -/
theorem Caseless.evaluateText (h : scope.Caseless) (hpure : scope.IsPure)
    (hresolvers : ∀ r ∈ scope.resolvers, r.IgnoresCase)
    (htext : Text.foldUnquoted text = Text.foldUnquoted text') :
    (Recorded.Comparison.upToCase History).Holds (scope.evaluateText text id)
      (scope.evaluateText text' id) := by
  refine Recorded.Comparison.evaluateText_of_alike _
    (fun text text' => Text.foldUnquoted text = Text.foldUnquoted text') Group.SameCase
    (fun scope => scope.Caseless ∧ scope.IsPure ∧ ∀ r ∈ scope.resolvers, r.IgnoresCase)
    ?_ ?_ ?_ ?_ ⟨h, hpure, hresolvers⟩ htext
  · rintro scope ⟨h, hpure, hresolvers⟩
    exact ⟨h.nested, hpure.nested, hresolvers⟩
  · rintro group group' ⟨-, hoffset⟩ fault
    rw [hoffset]
    exact Recorded.Comparison.throw _ _
  · rintro group group' ⟨hgroup, hoffset⟩
    refine ⟨?_, (Segment.all_of_foldUnquoted_eq hgroup).imp ?_⟩
    · rw [hoffset]
      exact Recorded.Comparison.shifted _ _
    · rintro segment segment' ⟨hsegment, hstart⟩
      refine ⟨hsegment, ?_⟩
      rw [hstart]
      exact Recorded.Comparison.shifted _ _
  · rintro scope elements elements' ⟨h, hpure, hresolvers⟩ hgroups text text' htext
    refine @Recorded.Comparison.evaluateTextWith_of_alike _ Cursor.SameName _ _ _ _ _ ?_ ?_ hgroups
      _ _ ((h.parse htext).mono (fun _ hsame => hsame) ?_)
    · intro name name' hname
      refine ask_upToCase hpure ?_ (congrArg (fun cs => Error.unresolvedVariable (.ofList cs)) hname)
      intro r hr history
      exact (hresolvers r hr history name name' (decide_eq_true hname)).1 id
    · intro name name' arguments hname
      refine ask_upToCase hpure ?_ (congrArg (fun cs => Error.unresolvedFunction (.ofList cs)) hname)
      intro r hr history
      exact (hresolvers r hr history name name' (decide_eq_true hname)).2 arguments id
    · rintro e ⟨e', hparse', hlowered⟩ history history'
      unfold evaluateTextWith
      rw [hparse']
      exact .error hlowered.symm

/-- In a scope with no regard to case, the case of letters outside quotes does not matter. Two texts
that differ in nothing else have trees that differ in the case of names and of what stands outside
quotes in groups, or fail with the same fault at the same place. If the resolvers have no state and
no regard to case, the texts have the same value or fail with the same error, up to the case of what
it quotes. -/
theorem sameEnd_of_foldUnquoted (hmode : scope.mode = CaseMode.none)
    (hconstants : scope.registry.constants.Pairwise fun a b => Text.sameFolded a.1 b.1 = false)
    (htext : Text.foldUnquoted text = Text.foldUnquoted text') :
    SameEnd (Tree.Alike Cursor.SameName Group.SameCase) (scope.parse text) (scope.parse text') ∧
      (scope.IsPure → (∀ r ∈ scope.resolvers, r.IgnoresCase) → ∀ id history history',
        SameEnd (· = ·) (scope.evaluateText text id history).1
          (scope.evaluateText text' id history').1) := by
  have hcaseless : scope.Caseless := ⟨hmode, hconstants⟩
  refine ⟨.of_ends (hcaseless.parse htext), ?_⟩
  intro hpure hresolvers id history history'
  exact hcaseless.evaluateText hpure hresolvers htext history history'

/-- A scope with names of each kind, and resolvers that know them in any case. -/
def spellingScope : Scope where
  registry := { variableNames := ["rate"], constants := [("half", .text "1/2")],
                functionNames := ["Round"] }
  resolvers := [.ofVariables 0 fun name _ =>
      if Text.sameFolded "rate" name then some (.text "low") else none,
    .ofFunctions 1 fun name arguments _ =>
      if Text.sameFolded "round" name then arguments.head? else none]

theorem sameEnd_of_foldUnquoted_spelling :
    Text.foldUnquoted "[ROUND(Rate), HALF, 'Aa']" = Text.foldUnquoted "[round(rate), half, 'Aa']" ∧
      (spellingScope.evaluateText "[round(rate), half, 'Aa']" none []).1 =
        .ok (.array [.text "low", .text "1/2", .text "Aa"]) ∧
      SameEnd (· = ·) (spellingScope.evaluateText "[ROUND(Rate), HALF, 'Aa']" none []).1
        (spellingScope.evaluateText "[round(rate), half, 'Aa']" none []).1 := by
  have htext : Text.foldUnquoted "[ROUND(Rate), HALF, 'Aa']" =
      Text.foldUnquoted "[round(rate), half, 'Aa']" := by decide
  have hpure : spellingScope.IsPure := by
    intro r hr
    simp only [spellingScope, List.mem_cons, List.not_mem_nil, or_false] at hr
    rcases hr with rfl | rfl
    · exact Resolver.isPure_ofVariables 0 _
    · exact Resolver.isPure_ofFunctions 1 _
  have hresolvers : ∀ r ∈ spellingScope.resolvers, r.IgnoresCase := by
    intro r hr history name name' hname
    have hsame : ∀ word, Text.sameFolded word name = Text.sameFolded word name' :=
      namesMatch_congr (of_decide_eq_true hname)
    simp only [spellingScope, List.mem_cons, List.not_mem_nil, or_false] at hr
    rcases hr with rfl | rfl
    · exact ⟨fun id => by simp only [Resolver.ofVariables, hsame], fun _ _ => rfl⟩
    · exact ⟨fun _ => rfl, fun arguments id => by simp only [Resolver.ofFunctions, hsame]⟩
  have hconstants : spellingScope.registry.constants.Pairwise
      fun a b => Text.sameFolded a.1 b.1 = false := List.pairwise_singleton _ _
  have hends := sameEnd_of_foldUnquoted rfl hconstants htext
  exact ⟨htext, by decide +kernel, hends.2 hpure hresolvers none [] []⟩

end Scope

end Formula
