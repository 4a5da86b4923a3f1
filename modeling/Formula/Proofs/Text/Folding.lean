import Formula.Error
import Formula.Proofs.Text.Classes

/-! # Folding

Folding makes capitals small and leaves every other character as it is. So a text without letters is
the only one that folds to what it folds to, and every spelling of an operator that is not a word is
compared as it stands, folded or not.
-/

namespace Formula.Text

variable {c d : Char} {cs ds : List Char} {a b : String}

/-! ## Characters -/

theorem toLower_of_not_isUpper (h : ¬ c.isUpper = true) : c.toLower = c := by
  have hrange : ¬ (c.val ≥ 'A'.val ∧ c.val ≤ 'Z'.val) := fun hrange => h (decide_eq_true hrange)
  exact dif_neg hrange

theorem toNat_toLower_of_isUpper (h : c.isUpper = true) : c.toLower.toNat = c.toNat + 0x20 := by
  have hrange : c.val ≥ 'A'.val ∧ c.val ≤ 'Z'.val := of_decide_eq_true h
  have hbounds := isUpper_iff.mp h
  have hvalue : c.toLower.val = c.val + ('a'.val - 'A'.val) := congrArg Char.val (dif_pos hrange)
  show c.toLower.val.toNat = c.val.toNat + 0x20
  rw [hvalue, UInt32.toNat_add]
  have hsmall : c.val.toNat ≤ 0x5A := hbounds.2
  have hdistance : ('a'.val - 'A'.val).toNat = 0x20 := by decide
  omega

theorem isLower_toLower_of_isUpper (h : c.isUpper = true) : c.toLower.isLower = true := by
  have hmoved := toNat_toLower_of_isUpper h
  have hbounds := isUpper_iff.mp h
  exact isLower_iff.mpr (by omega)

/-- Only letters are alike without being the same. -/
theorem eq_of_toLower_eq (hd : d.isAlpha = false) (h : c.toLower = d.toLower) : c = d := by
  have hcase : ¬ d.isUpper = true ∧ ¬ d.isLower = true := by
    rw [← not_or, ← isAlpha_iff, hd]
    exact Bool.false_ne_true
  rw [toLower_of_not_isUpper hcase.1] at h
  by_cases hupper : c.isUpper = true
  · rw [← h] at hcase
    exact absurd (isLower_toLower_of_isUpper hupper) hcase.2
  · rw [← h, toLower_of_not_isUpper hupper]

theorem toLower_toLower (c : Char) : c.toLower.toLower = c.toLower := by
  by_cases hupper : c.isUpper = true
  · have hlower := isLower_iff.mp (isLower_toLower_of_isUpper hupper)
    refine toLower_of_not_isUpper fun hagain => ?_
    have hbounds := isUpper_iff.mp hagain
    omega
  · rw [toLower_of_not_isUpper hupper, toLower_of_not_isUpper hupper]

/-- It makes no difference whether a character is folded before it is compared to one that is not a
letter. -/
theorem toLower_eq_iff (hd : d.isAlpha = false) : c.toLower = d ↔ c = d := by
  have hsame : d.toLower = d := by
    refine toLower_of_not_isUpper fun hupper => ?_
    rw [isAlpha_iff.mpr (.inl hupper)] at hd
    cases hd
  constructor
  · intro h
    exact eq_of_toLower_eq hd (h.trans hsame.symm)
  · rintro rfl
    exact hsame

theorem toLower_mem_iff (hds : ∀ d ∈ ds, d.isAlpha = false) : c.toLower ∈ ds ↔ c ∈ ds := by
  constructor
  · intro hmem
    rw [(toLower_eq_iff (hds _ hmem)).mp rfl]
    exact hmem
  · intro hmem
    rw [(toLower_eq_iff (hds c hmem)).mpr rfl]
    exact hmem

/-! ## Classes -/

/-- A class that has all letters, or none, has no regard to case. -/
theorem class_toLower {p : Char → Bool} {all : Bool} (h : ∀ c, isLetter c = true → p c = all)
    (c : Char) : p c.toLower = p c := by
  by_cases hupper : c.isUpper = true
  · have hlower := isLower_toLower_of_isUpper hupper
    have hagain : c.toLower.toLower.isLower = true := by rwa [toLower_toLower]
    rw [h c (isLetter_of_isLower_toLower hlower), h _ (isLetter_of_isLower_toLower hagain)]
  · rw [toLower_of_not_isUpper hupper]

theorem startsName_of_isLetter (h : isLetter c = true) : startsName c = true := by
  rw [startsName, h, Bool.true_or]

theorem startsName_toLower (c : Char) : startsName c.toLower = startsName c :=
  class_toLower (fun _ => startsName_of_isLetter) c

theorem continuesName_toLower (c : Char) : continuesName c.toLower = continuesName c :=
  class_toLower (fun _ h => continuesName_of_startsName (startsName_of_isLetter h)) c

theorem isDigit_toLower (c : Char) : Decimal.isDigit c.toLower = Decimal.isDigit c :=
  class_toLower (fun _ h => isDigit_eq_false_of_startsName (startsName_of_isLetter h)) c

theorem isBlank_toLower (c : Char) : isBlank c.toLower = isBlank c :=
  class_toLower (fun _ h => isBlank_eq_false_of_startsName (startsName_of_isLetter h)) c

/-! ## Texts -/

theorem map_toLower_map_toLower (cs : List Char) :
    (cs.map Char.toLower).map Char.toLower = cs.map Char.toLower := by
  rw [List.map_map]
  exact List.map_congr_left fun c _ => toLower_toLower c

theorem eq_of_map_toLower_eq (hds : ∀ d ∈ ds, d.isAlpha = false)
    (h : cs.map Char.toLower = ds.map Char.toLower) : cs = ds := by
  induction ds generalizing cs with
  | nil => exact List.map_eq_nil_iff.mp h
  | cons d ds ih =>
    cases cs with
    | nil => cases h
    | cons c cs =>
      rw [List.map_cons, List.map_cons, List.cons.injEq] at h
      rw [eq_of_toLower_eq (hds d List.mem_cons_self) h.1,
        ih (fun e he => hds e (List.mem_cons_of_mem d he)) h.2]

/-- A text without letters is the only one that folds like it. -/
theorem eq_of_fold_eq (hb : ∀ d ∈ b.toList, d.isAlpha = false) (h : fold a = fold b) : a = b :=
  String.toList_injective (eq_of_map_toLower_eq hb h)

/-- It makes no difference which of two texts that fold alike is compared to a text without letters. -/
theorem eq_iff_of_fold_eq {key : String} (hkey : ∀ d ∈ key.toList, d.isAlpha = false)
    (h : fold a = fold b) : a = key ↔ b = key := by
  constructor
  · rintro rfl
    exact eq_of_fold_eq hkey h.symm
  · rintro rfl
    exact eq_of_fold_eq hkey h

theorem sameFolded_congr (h : fold a = fold b) (word : String) :
    sameFolded a word = sameFolded b word := by
  rw [sameFolded, sameFolded, h]

theorem lookup_eq_of_fold_eq {β : Type} {table : List (String × β)}
    (htable : ∀ entry ∈ table, entry.1.toList.all (fun d => decide (d.isAlpha = false)) = true)
    (h : fold a = fold b) :
    table.lookup a = table.lookup b := by
  induction table with
  | nil => rfl
  | cons entry table ih =>
    have hrest := ih fun other hother => htable other (List.mem_cons_of_mem entry hother)
    have hkey := eq_iff_of_fold_eq (forall_mem_of_all (htable entry List.mem_cons_self)) h
    have hsame : (a == entry.1) = (b == entry.1) := by
      rw [Bool.eq_iff_iff, beq_iff_eq, beq_iff_eq, hkey]
    rw [List.lookup_cons, List.lookup_cons, hrest, hsame]

/-! ## Operators -/

theorem prefixOp?_congr (h : fold a = fold b) : PrefixOp.ofSymbol? a = PrefixOp.ofSymbol? b :=
  lookup_eq_of_fold_eq (forall_mem_of_all (by decide)) h

theorem infixOp?_congr (h : fold a = fold b) : InfixOp.ofSymbol? a = InfixOp.ofSymbol? b := by
  have hspellings : InfixOp.spellings.lookup a = InfixOp.spellings.lookup b :=
    lookup_eq_of_fold_eq (forall_mem_of_all (by decide)) h
  have hkeywords : (fun keyword : String × InfixOp => sameFolded keyword.1 a) =
      fun keyword => sameFolded keyword.1 b := by
    funext keyword
    rw [sameFolded, sameFolded, h]
  unfold InfixOp.ofSymbol?
  rw [hspellings, hkeywords]

end Formula.Text

namespace Formula

/-! ## Errors -/

/-- The text with every ASCII capital made small. -/
def Text.lowered (s : String) : String :=
  String.ofList (Text.fold s)

/-- The fault, with small letters in what it quotes. -/
def Fault.lowered : Fault → Fault
  | .unexpectedCharacter c => .unexpectedCharacter c.toLower
  | .invalidNumber lexeme => .invalidNumber (Text.lowered lexeme)
  | .unexpectedToken text => .unexpectedToken (Text.lowered text)
  | .notClosed found opening => .notClosed (Text.lowered found) opening
  | .functionNotCalled name => .functionNotCalled (Text.lowered name)
  | .unknownIdentifier name => .unknownIdentifier (Text.lowered name)
  | fault => fault

/-- The error, with small letters in what it quotes. -/
def Error.lowered : Error → Error
  | .positioned fault offset length => .positioned fault.lowered offset length
  | .unresolvedVariable name => .unresolvedVariable (Text.lowered name)
  | .unresolvedFunction name => .unresolvedFunction (Text.lowered name)
  | e => e

end Formula
