import Formula.Evaluation
import Formula.Proofs.Nesting
import Formula.Proofs.Token.Cursor
import Formula.Proofs.Tree.Rules

/-! # The parentheses of accepted texts

A parenthesis is closed by whatever token has the right text, and a string may have it. `Phrase` is
the grammar of the tokens an expression takes, with the number of parentheses closed by a string: the
parser takes phrases only, a phrase passes over its text leaving that many parentheses open, and the
number can be read off the tokens without parsing. So the texts accepted are balanced but for the
parentheses that strings have closed.
-/

namespace Formula

/-! ## Phrases -/

/-- A token that is an operand by itself. -/
def Token.IsAtom (token : Token) : Prop :=
  (∃ value, token.kind = .number value) ∨ token.kind = .string ∨ token.kind = .identifier

/-- The tokens of an expression, `strays` of whose parentheses are closed by a string. -/
inductive Phrase : (strays : Nat) → List Token → Prop where
  | atom {token : Token} (h : token.IsAtom) : Phrase 0 [token]
  | prefixed {strays : Nat} {op : Token} {operand : List Token} (hop : op.kind = .operator)
      (h : Phrase strays operand) : Phrase strays (op :: operand)
  | joined {m n : Nat} {op : Token} {left right : List Token}
      (hop : op.kind = .operator ∨ op.kind = .identifier) (hleft : Phrase m left)
      (hright : Phrase n right) : Phrase (m + n) (left ++ op :: right)
  | closed {strays : Nat} {opening closing : Token} {inside : List Token}
      (hopening : opening.kind = .opening ∧ opening.text = "(") (h : Phrase strays inside)
      (hclosing : closing.kind = .closing ∧ closing.text = ")") :
      Phrase strays (opening :: inside ++ [closing])
  | stray {strays : Nat} {opening closing : Token} {inside : List Token}
      (hopening : opening.kind = .opening ∧ opening.text = "(") (h : Phrase strays inside)
      (hclosing : closing.kind = .string) : Phrase (strays + 1) (opening :: inside ++ [closing])

/-- The strings that stand where an operator or a closing parenthesis should, as they do in an
accepted text only if they close one. `behind` says whether an operand has just ended. -/
def Token.strays : (behind : Bool) → List Token → Nat
  | _, [] => 0
  | behind, token :: rest =>
    match token.kind with
    | .number _ | .closing => strays true rest
    | .string => behind.toNat + strays true rest
    | .identifier => strays (!behind) rest
    | .operator | .opening | .separator => strays false rest

/-- The strays of a text. -/
def strays (text : String) : Nat :=
  Token.strays false (Cursor.ofText text).tokens.1

/-- A phrase ends an operand, and its strays are those of its tokens. -/
theorem Phrase.strays_append {n : Nat} {tokens : List Token} (h : Phrase n tokens)
    (rest : List Token) : Token.strays false (tokens ++ rest) = n + Token.strays true rest := by
  induction h generalizing rest with
  | @atom token h =>
    rcases h with ⟨value, hkind⟩ | hkind | hkind
    · simp [Token.strays, hkind]
    · simp [Token.strays, hkind]
    · simp [Token.strays, hkind]
  | @prefixed _ op operand hop _ ih => simp [Token.strays, hop, ih]
  | @joined m n op left right hop _ _ ihleft ihright =>
    rw [List.append_assoc, ihleft, List.cons_append]
    rcases hop with hop | hop
    · simp [Token.strays, hop, ihright, Nat.add_assoc]
    · simp [Token.strays, hop, ihright, Nat.add_assoc]
  | closed hopening _ hclosing ih =>
    simp [Token.strays, hopening.1, hclosing.1, ih]
  | stray hopening _ hclosing ih =>
    simp [Token.strays, hopening.1, hclosing, ih, Nat.add_assoc]

/-! ## Phrases pass over their text -/

theorem plain_of_isBlank {c : Char} (h : Text.isBlank c = true) : Nesting.Plain c := by
  intro hmem
  have hnone : ∀ d ∈ [quote, '[', ']', '(', ')', separator], Text.isBlank d = false :=
    forall_mem_of_all (by decide)
  simp [hnone c hmem] at h

theorem plain_of_isNumeric {c : Char} (h : Scan.IsNumeric c) : Nesting.Plain c := by
  intro hmem
  have hnone : ∀ d ∈ [quote, '[', ']', '(', ')', separator],
      Decimal.isDigit d = false ∧ d ∉ ['.', 'e', 'E', '+', '-'] :=
    forall_mem_of_all (by decide)
  rcases h with hdigit | hother
  · simp [(hnone c hmem).1] at hdigit
  · exact (hnone c hmem).2 hother

theorem plain_of_continuesName {c : Char} (h : Text.continuesName c = true) : Nesting.Plain c := by
  intro hmem
  have hnone : ∀ d ∈ [quote, '[', ']', '(', ')', separator], Text.continuesName d = false :=
    forall_mem_of_all (by decide)
  simp [hnone c hmem] at h

theorem plain_of_identifier {lexeme : List Char} (h : Token.Kind.identifier.Fits lexeme) :
    ∀ c ∈ lexeme, Nesting.Plain c := by
  rcases h with ⟨c, cs, rfl, hfirst, hothers⟩
  intro d hd
  rcases List.mem_cons.mp hd with rfl | hd
  · exact plain_of_continuesName (Text.continuesName_of_startsName hfirst)
  · exact plain_of_continuesName (hothers d hd)

theorem plain_of_operator {lexeme : List Char} (h : Token.Kind.operator.Fits lexeme) :
    ∀ c ∈ lexeme, Nesting.Plain c := by
  have hone : ∀ c ∈ Scan.oneCharOperators, c ∉ [quote, '[', ']', '(', ')', separator] :=
    forall_mem_of_all (by decide)
  have htwo : ∀ cd ∈ Scan.twoCharOperators, cd.1 ∈ Scan.oneCharOperators ∧
      cd.2 ∈ Scan.oneCharOperators := forall_mem_of_all (by decide)
  rcases h with ⟨c, hc, rfl⟩ | ⟨cd, hcd, rfl⟩
  · intro d hd
    rw [List.mem_singleton.mp hd]
    exact hone c hc
  · intro d hd
    simp only [List.mem_cons, List.not_mem_nil, or_false] at hd
    rcases hd with rfl | rfl
    · exact hone _ (htwo cd hcd).1
    · exact hone _ (htwo cd hcd).2

/-- The kinds of tokens that leave the nesting as it is. -/
def Token.Kind.IsLevel (kind : Token.Kind) : Prop :=
  kind ≠ .opening ∧ kind ≠ .closing ∧ kind ≠ .separator

variable {t : Nesting} {low : Int}

theorem passes_of_blank {cs : List Char} (h : ∀ c ∈ cs, Text.isBlank c = true)
    (hlow : low ≤ t.parens) : t.Passes low cs t :=
  Nesting.passes_of_plain (fun c hc => plain_of_isBlank (h c hc)) hlow

theorem passes_of_level {kind : Token.Kind} {lexeme : List Char} (hkind : kind.IsLevel)
    (h : kind.Fits lexeme) (hquoted : t.quoted = false) (hlow : low ≤ t.parens) :
    t.Passes low lexeme t := by
  cases kind with
  | number value => exact Nesting.passes_of_plain (fun c hc => plain_of_isNumeric (h.2 c hc)) hlow
  | string =>
    rcases h with ⟨inside, rfl, hinside⟩
    exact Nesting.passes_string hinside hquoted hlow
  | identifier => exact Nesting.passes_of_plain (plain_of_identifier h) hlow
  | operator => exact Nesting.passes_of_plain (plain_of_operator h) hlow
  | opening => exact absurd rfl hkind.1
  | closing => exact absurd rfl hkind.2.1
  | separator => exact absurd rfl hkind.2.2

namespace Cursor

variable {c c' c'' : Cursor} {token : Token} {m n : Nat}

/-- What is read from `c` to `c'` leaves `n` more parentheses open, and on the way no parenthesis is
closed that was open before. -/
def Raises (c : Cursor) (n : Nat) (c' : Cursor) : Prop :=
  ∃ cs, c.rest = cs ++ c'.rest ∧
    ∀ (t : Nesting) (low : Int), t.quoted = false → low ≤ t.parens → t.Passes low cs (t.raise n)

theorem Raises.trans (hfront : c.Raises m c') (hback : c'.Raises n c'') :
    c.Raises (m + n) c'' := by
  rcases hfront with ⟨cs, hcs, hfront⟩
  rcases hback with ⟨ds, hds, hback⟩
  refine ⟨cs ++ ds, by rw [hcs, hds, List.append_assoc], ?_⟩
  intro t low hquoted hlow
  have hraised : low ≤ (t.raise m).parens := by
    rw [Nesting.raise_parens]
    omega
  have hwhole := (hfront t low hquoted hlow).append (hback (t.raise m) low hquoted hraised)
  rw [Nesting.raise_raise] at hwhole
  exact_mod_cast hwhole

/-- A token raises the nesting as its lexeme does. -/
theorem Cuts.raises {blanks lexeme : List Char} (hcuts : c.Cuts blanks lexeme token c')
    (hlexeme : ∀ (t : Nesting) (low : Int), t.quoted = false → low ≤ t.parens →
      t.Passes low lexeme (t.raise n)) : c.Raises n c' := by
  refine ⟨blanks ++ lexeme, by rw [hcuts.rest_eq, List.append_assoc], ?_⟩
  intro t low hquoted hlow
  exact (passes_of_blank hcuts.blank hlow).append (hlexeme t low hquoted hlow)

theorem raises_of_level (h : c.next = (.ok (some token), c')) (hkind : token.kind.IsLevel) :
    c.Raises 0 c' := by
  rcases cuts_of_next h with ⟨blanks, lexeme, hcuts⟩
  refine hcuts.raises ?_
  intro t low hquoted hlow
  simpa using passes_of_level hkind hcuts.fits hquoted hlow

theorem raises_of_opening (h : c.next = (.ok (some token), c'))
    (hopening : token.kind = .opening ∧ token.text = "(") : c.Raises 1 c' := by
  rcases cuts_of_next h with ⟨blanks, lexeme, hcuts⟩
  have hlexeme : lexeme = ['('] := by
    rw [hcuts.lexeme_eq (by simp [hopening.1]), hopening.2]
    rfl
  refine hcuts.raises ?_
  intro t low hquoted hlow
  rw [hlexeme]
  exact Nesting.passes_opening hquoted hlow

/-- A closing parenthesis takes back one that was opened on the way. -/
theorem Raises.close (hfront : c.Raises (n + 1) c') (h : c'.next = (.ok (some token), c''))
    (hclosing : token.kind = .closing ∧ token.text = ")") : c.Raises n c'' := by
  rcases hfront with ⟨cs, hcs, hfront⟩
  rcases cuts_of_next h with ⟨blanks, lexeme, hcuts⟩
  have hlexeme : lexeme = [')'] := by
    rw [hcuts.lexeme_eq (by simp [hclosing.1]), hclosing.2]
    rfl
  refine ⟨cs ++ (blanks ++ lexeme), ?_, ?_⟩
  · rw [hcs, hcuts.rest_eq, List.append_assoc, List.append_assoc]
  intro t low hquoted hlow
  -- the parenthesis opened on the way keeps the closing one above the bound
  have hopen : low < (t.raise (n + 1 : Nat)).parens := by
    rw [Nesting.raise_parens]
    omega
  have hblanks : (t.raise (n + 1 : Nat)).Passes low blanks (t.raise (n + 1 : Nat)) :=
    passes_of_blank hcuts.blank (Int.le_of_lt hopen)
  have hclose : (t.raise (n + 1 : Nat)).Passes low [')'] (t.raise n) := by
    have hlast := Nesting.passes_closing (t := t.raise (n + 1 : Nat)) hquoted hopen
    have hless : ((n + 1 : Nat) : Int) + -1 = n := by omega
    rw [Nesting.raise_raise, hless] at hlast
    exact hlast
  rw [hlexeme]
  exact (hfront t low hquoted hlow).append (hblanks.append hclose)

end Cursor

theorem Token.IsAtom.isLevel {token : Token} (h : token.IsAtom) : token.kind.IsLevel := by
  rcases h with ⟨value, hkind⟩ | hkind | hkind
  · simp [Token.Kind.IsLevel, hkind]
  · simp [Token.Kind.IsLevel, hkind]
  · simp [Token.Kind.IsLevel, hkind]

/-- A phrase leaves as many parentheses open as it has strays. -/
theorem Phrase.raises {n : Nat} {tokens : List Token} (h : Phrase n tokens) {c c' : Cursor}
    (hreads : c.Reads tokens c') : c.Raises n c' := by
  induction h generalizing c c' with
  | atom h =>
    cases hreads with
    | cons hnext hrest =>
      cases hrest
      exact Cursor.raises_of_level hnext h.isLevel
  | prefixed hop _ ih =>
    cases hreads with
    | cons hnext hrest =>
      have hlevel := Cursor.raises_of_level hnext (by simp [Token.Kind.IsLevel, hop])
      simpa using hlevel.trans (ih hrest)
  | joined hop _ _ ihleft ihright =>
    rcases hreads.of_append with ⟨middle, hleft, hright⟩
    cases hright with
    | cons hnext hrest =>
      have hlevel : middle.Raises 0 _ := Cursor.raises_of_level hnext (by
        rcases hop with hop | hop <;> simp [Token.Kind.IsLevel, hop])
      simpa using (ihleft hleft).trans (hlevel.trans (ihright hrest))
  | closed hopening _ hclosing ih =>
    rcases hreads.of_append with ⟨middle, hfront, hlast⟩
    cases hfront with
    | cons hnext hinside =>
      cases hlast with
      | cons hclose hnil =>
        cases hnil
        have hopened := (Cursor.raises_of_opening hnext hopening).trans (ih hinside)
        rw [Nat.add_comm] at hopened
        exact hopened.close hclose hclosing
  | stray hopening _ hclosing ih =>
    rcases hreads.of_append with ⟨middle, hfront, hlast⟩
    cases hfront with
    | cons hnext hinside =>
      cases hlast with
      | cons hclose hnil =>
        cases hnil
        have hopened := (Cursor.raises_of_opening hnext hopening).trans (ih hinside)
        have hstring := Cursor.raises_of_level hclose (by simp [Token.Kind.IsLevel, hclosing])
        rw [Nat.add_comm] at hopened
        exact hopened.trans hstring

/-! ## What the parser takes -/

namespace Parser

/-- From `c` on, a phrase has been read up to the token ahead. -/
def State.HasRead (s : State) (c : Cursor) : Prop :=
  ∃ n tokens c', Phrase n tokens ∧ c.Reads tokens c' ∧ s.From c'

/-- From any text without brackets, what the parser takes is a phrase. -/
def TakesPhrase (x : Parser Tree) : Prop :=
  ∀ {c s}, '[' ∉ c.rest → s.From c → Meets x s (fun _ s' => s'.HasRead c) fun _ => True

variable {setting : Setting} {inside : Parser Tree} {below : Option (Parser Tree)} {c : Cursor}
  {s : State} {token : Token}

/-- The token ahead is read from where the state has come from. -/
theorem State.From.reads (hs : s.From c) (hahead : s.ahead = some token) :
    c.Reads [token] s.cursor := by
  rw [State.From, hahead] at hs
  exact Cursor.reads_one hs

/-- Nothing that is read lies outside the text. -/
theorem not_mem_of_reads {c' : Cursor} {tokens : List Token} (hbracket : '[' ∉ c.rest)
    (h : c.Reads tokens c') : '[' ∉ c'.rest :=
  fun hmem => hbracket (h.suffix.mem hmem)

/-- In a text without brackets, what opens is a parenthesis. -/
theorem text_of_opening {c' : Cursor} (hbracket : '[' ∉ c.rest)
    (h : c.next = (.ok (some token), c')) (hkind : token.kind = .opening) : token.text = "(" := by
  rcases Cursor.cuts_of_next h with ⟨blanks, lexeme, hcuts⟩
  have hfits := hcuts.fits
  have htext := hcuts.text_eq
  rw [hkind] at hfits htext
  rcases hfits with rfl | rfl
  · exact htext
  · rw [hcuts.rest_eq] at hbracket
    simp at hbracket

/-- What has the text of a closing parenthesis is one, or a string. -/
theorem kind_of_text {c' : Cursor} (h : c.next = (.ok (some token), c')) (htext : token.text = ")") :
    token.kind = .closing ∨ token.kind = .string := by
  rcases Cursor.cuts_of_next h with ⟨blanks, lexeme, hcuts⟩
  by_cases hstring : token.kind = .string
  · exact Or.inr hstring
  -- every other token has the lexeme `)`, which fits one kind only
  have hlexeme : lexeme = [')'] := by
    rw [hcuts.lexeme_eq hstring, htext]
    rfl
  have hfits := hcuts.fits
  rw [hlexeme] at hfits
  left
  cases hkind : token.kind with
  | string => exact absurd hkind hstring
  | closing => rfl
  | number value =>
    rw [hkind] at hfits
    exact absurd (hfits.2 ')' (by simp)) (by unfold Scan.IsNumeric; decide)
  | identifier =>
    rw [hkind] at hfits
    rcases hfits with ⟨d, ds, heq, hname, _⟩
    cases heq
    exact absurd hname (by decide)
  | operator =>
    rw [hkind] at hfits
    exact (plain_of_operator hfits ')' (by simp) (by simp)).elim
  | opening =>
    rw [hkind] at hfits
    rcases hfits with heq | heq
    · cases heq
    · cases heq
  | separator =>
    rw [hkind] at hfits
    cases hfits

theorem State.From.hasRead_atom (hs : s.From c) (hahead : s.ahead = some token)
    (hatom : token.IsAtom) {s' : State} (hs' : s'.From s.cursor) : s'.HasRead c :=
  ⟨0, [token], s.cursor, .atom hatom, hs.reads hahead, hs'⟩

/-- A parenthesis is closed by a closing one or by a string, either way behind a phrase. -/
theorem meets_close_of_hasRead {opening : Token} {openedAt : Nat} {c' : Cursor}
    (hopening : opening.kind = .opening ∧ opening.text = "(")
    (hnext : c.next = (.ok (some opening), c')) (hs : s.HasRead c') :
    Meets (close openedAt) s (fun _ s' => s'.HasRead c) fun _ => True := by
  rcases hs with ⟨n, tokens, c'', hphrase, hreads, hs⟩
  refine meets_close (fun _ _ _ => trivial) (fun _ => trivial) ?_ fun _ _ _ => trivial
  intro closing s' hahead htext hs'
  have hlast := hs.reads hahead
  have hwhole := (Cursor.Reads.cons hnext hreads).append hlast
  rw [State.From, hahead] at hs
  rcases kind_of_text hs htext with hkind | hkind
  · exact ⟨n, _, _, .closed hopening hphrase ⟨hkind, htext⟩, hwhole, hs'⟩
  · exact ⟨n + 1, _, _, .stray hopening hphrase hkind, hwhole, hs'⟩

theorem takesPhrase_primary (hfunctions : ∀ name, setting.names.isFunction name = false)
    (hinside : TakesPhrase inside) : TakesPhrase (primary setting inside) := by
  intro c s hbracket hs
  refine meets_primary (fun _ => trivial) ?_ ?_
  · -- no bracket is ahead
    intro token hahead hopening
    have hnext := hs
    rw [State.From, hahead] at hnext
    have hboth : token.kind = .opening ∧ token.text = "[" := by
      simpa [Token.isOpening] using hopening
    have htext := text_of_opening hbracket hnext hboth.1
    rw [hboth.2] at htext
    exact absurd htext (by decide)
  · intro token hahead _
    refine meets_next ?_ fun _ _ _ => trivial
    intro s' hs'
    have hnext := hs
    rw [State.From, hahead] at hnext
    have hread : token.IsAtom → s'.HasRead c := fun hatom => hs.hasRead_atom hahead hatom hs'
    unfold operandFrom
    -- a token that begins no operand is an error, of which nothing is said
    split
    · rename_i value hkind
      exact meets_pure (hread (Or.inl ⟨value, hkind⟩))
    · rename_i hkind
      exact meets_pure (hread (Or.inr (Or.inl hkind)))
    · rename_i hkind
      have hatom := hread (Or.inr (Or.inr hkind))
      refine meets_name (fun _ => hatom) ?_ ?_
      · intro _ _ _ hfunction
        rw [hfunctions] at hfunction
        cases hfunction
      · exact meets_nameAlone (fun _ _ => hatom) (fun _ => hatom) (fun _ => trivial) trivial
    · rename_i hkind
      have hopening := And.intro hkind (text_of_opening hbracket hnext hkind)
      have hbracket' := not_mem_of_reads hbracket (hs.reads hahead)
      refine meets_bind (hinside hbracket' hs') ?_
      intro tree s'' hs''
      exact meets_bind (meets_close_of_hasRead hopening hnext hs'') fun _ _ h => h
    all_goals exact meets_fail trivial

theorem takesPhrase_operandOver (hfunctions : ∀ name, setting.names.isFunction name = false)
    (hinside : TakesPhrase inside) (hbelow : ∀ operand, below = some operand → TakesPhrase operand) :
    TakesPhrase (operandOver setting inside below) := by
  intro c s hbracket hs
  refine meets_operandOver (fun _ => takesPhrase_primary hfunctions hinside hbracket hs) ?_
  intro op hop
  rcases Option.bind_eq_some_iff.mp hop with ⟨token, hahead, hprefixed⟩
  have hkind : token.kind = .operator := by
    unfold Token.prefixOp? at hprefixed
    split at hprefixed
    · assumption
    · cases hprefixed
  refine ⟨fun _ _ _ => trivial, ?_⟩
  intro s' hs'
  refine ⟨fun _ => trivial, ?_⟩
  intro _
  cases below with
  | none => trivial
  | some operand =>
    have hbracket' := not_mem_of_reads hbracket (hs.reads hahead)
    refine meets_map ((hbelow operand rfl hbracket' hs').mono ?_ fun _ h => h)
    intro tree s'' hread
    rcases hread with ⟨n, tokens, c', hphrase, hreads, hs''⟩
    exact ⟨n, _, c', .prefixed hkind hphrase, (hs.reads hahead).append hreads, hs''⟩

/-- Behind a phrase, the loop over the operators makes a longer one. -/
theorem meets_climb_of_hasRead {right : Nat → Parser Tree} {least turns : Nat} {left : Tree}
    (hright : ∀ least, TakesPhrase (right least)) (hbracket : '[' ∉ c.rest) (hs : s.HasRead c) :
    Meets (climb right least turns left) s (fun _ s' => s'.HasRead c) fun _ => True := by
  -- on the turns that are left, for any phrase read so far
  induction turns generalizing left s with
  | zero => exact meets_pure hs
  | succ turns ih =>
    refine meets_climb_succ (fun _ => hs) ?_
    intro op hop _
    rcases Option.bind_eq_some_iff.mp hop with ⟨token, hahead, hinfix⟩
    have hkind : token.kind = .operator ∨ token.kind = .identifier := by
      unfold Token.infixOp? at hinfix
      split at hinfix
      · exact Or.inl ‹_›
      · exact Or.inr ‹_›
      · cases hinfix
    refine ⟨fun _ _ _ => trivial, ?_⟩
    intro s' hs'
    refine ⟨fun _ => trivial, ?_⟩
    intro _
    rcases hs with ⟨m, front, middle, hleft, hfront, hs⟩
    have hread := hfront.append (hs.reads hahead)
    refine (hright _ (not_mem_of_reads hbracket hread) hs').mono ?_ fun _ h => h
    intro tree s'' hread'
    rcases hread' with ⟨n, back, c', hback, hreads, hs''⟩
    have hwhole := hread.append hreads
    rw [List.append_assoc] at hwhole
    exact ih ⟨m + n, _, c', .joined hkind hleft hback, hwhole, hs''⟩

/-- Within any budget, operands and expressions are phrases. -/
theorem takesPhrase_stage (hfunctions : ∀ name, setting.names.isFunction name = false) (n : Nat) :
    TakesPhrase (stage setting n).operand ∧
      ∀ least, TakesPhrase ((stage setting n).expression least) := by
  refine @stage_induction setting TakesPhrase (fun _ => TakesPhrase) ?_ ?_ ?_ n
  · intro level c s _ _
    trivial
  · intro inside below hinside hbelow
    exact takesPhrase_operandOver hfunctions hinside hbelow
  · intro operand right level hoperand hright c s hbracket hs
    refine meets_bind (hoperand hbracket hs) ?_
    intro left s' hs'
    exact meets_climb_of_hasRead hright hbracket hs'

end Parser

/-! ## Whole texts -/

/-- The tokens of an accepted text are a phrase. -/
theorem Scope.phrase_of_parse {scope : Scope} {text : String} {tree : Tree}
    (hfunctions : scope.registry.functionNames = []) (hbracket : '[' ∉ text.toList)
    (h : scope.parse text = .ok tree) :
    ∃ n tokens c c', Phrase n tokens ∧ (Cursor.ofText text).Reads tokens c ∧
      c.next = (.ok none, c') := by
  have hnone : ∀ name, (scope.registry.names scope.mode).isFunction name = false := by
    intro name
    simp [Registry.names, Registry.hasFunction, hfunctions]
  have hparse : Parser.Ends (scope.parse text)
      (fun _ => ∃ n tokens c c', Phrase n tokens ∧ (Cursor.ofText text).Reads tokens c ∧
        c.next = (.ok none, c')) fun _ => True := by
    refine Parser.parse_meets (fun _ _ _ => trivial) fun s hs => Parser.meets_whole ?_
    refine ((Parser.takesPhrase_stage hnone _).2 0 hbracket hs).mono ?_ fun _ h => h
    intro tree' s' hread
    rcases hread with ⟨n, tokens, c, hphrase, hreads, hs'⟩
    refine ⟨fun hahead => ⟨n, tokens, c, s'.cursor, hphrase, hreads, ?_⟩, fun _ _ => trivial⟩
    rw [Parser.State.From, hahead] at hs'
    exact hs'
  rw [h] at hparse
  exact hparse

/-- The nesting at the end of an accepted text, and everywhere in it. The text is balanced exactly if
no string closes a parenthesis. -/
theorem Scope.nesting_of_parse {scope : Scope} {text : String} {tree : Tree}
    (hfunctions : scope.registry.functionNames = []) (hbracket : '[' ∉ text.toList)
    (h : scope.parse text = .ok tree) :
    Nesting.top.advanceAll text.toList = { brackets := 0, parens := strays text, quoted := false } ∧
      ((Nesting.top.advanceAll text.toList).isTop = true ↔ strays text = 0) ∧
      (∀ t ∈ Nesting.top.trail text.toList, 0 ≤ t.parens) ∧
      ∀ before after, text.toList = before ++ separator :: after →
        (Nesting.top.advanceAll before).quoted = true := by
  rcases phrase_of_parse hfunctions hbracket h with ⟨n, tokens, c, c', hphrase, hreads, hend⟩
  -- the strays of the phrase are those that are read off the tokens
  have hstrays : strays text = n := by
    rw [strays, hreads.tokens_eq hend]
    have happend := hphrase.strays_append []
    rw [List.append_nil] at happend
    exact happend
  -- behind the phrase there is nothing but blanks
  rcases hphrase.raises hreads with ⟨cs, hcs, hraises⟩
  have hblank : (Nesting.top.raise n).Passes 0 c.rest (Nesting.top.raise n) :=
    passes_of_blank (Cursor.blank_of_next_none hend) (by simp [Nesting.top])
  have htext : text.toList = cs ++ c.rest := hcs
  have hpasses : Nesting.top.Passes 0 text.toList (Nesting.top.raise n) := by
    rw [htext]
    exact (hraises Nesting.top 0 rfl (Int.le_refl 0)).append hblank
  refine ⟨?_, ?_, hpasses.floor, hpasses.separators⟩
  · rw [hpasses.behind, hstrays]
    simp [Nesting.raise, Nesting.top]
  · rw [hpasses.behind, hstrays]
    simp [Nesting.isTop, Nesting.raise, Nesting.top]

/-- A string has closed the parenthesis, which the nesting takes for open. -/
theorem Scope.nesting_of_parse_stray :
    Scope.parse {} "(1 ')'" = .ok (.literal (.number (Decimal.nearest false 1 0))) ∧
      strays "(1 ')'" = 1 ∧
      Nesting.top.advanceAll "(1 ')'".toList = { brackets := 0, parens := 1, quoted := false } ∧
      (Nesting.top.advanceAll "(1 ')'".toList).isTop = false := by
  have hsome : (Scope.parse {} "(1 ')'").toOption =
      some (.literal (.number (Decimal.nearest false 1 0))) := by decide +kernel
  have hparse : Scope.parse {} "(1 ')'" = .ok (.literal (.number (Decimal.nearest false 1 0))) := by
    cases hrun : Scope.parse {} "(1 ')'" with
    | error e =>
      rw [hrun] at hsome
      cases hsome
    | ok tree =>
      rw [hrun] at hsome
      exact congrArg Except.ok (Option.some.inj hsome)
  have hstrays : strays "(1 ')'" = 1 := by decide +kernel
  have hnesting := Scope.nesting_of_parse rfl (by decide) hparse
  rw [hstrays] at hnesting
  refine ⟨hparse, hstrays, hnesting.1, ?_⟩
  refine Bool.eq_false_iff.mpr ?_
  intro htop
  exact absurd (hnesting.2.1.mp htop) (by decide)

end Formula
