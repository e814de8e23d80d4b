import Mathlib
import Collections.Text.Blank
import Collections.Text.Readable

/-!
# Numerals among blanks

A numeral is an optional plus sign and at least one decimal digit, however many zeros come first.
Reading finds a number exactly in a numeral with blanks around it, and it tells a number that is
too large from one that fits before the digits have been read to the end.
-/

namespace Collections.Text

variable {text core digits : List Char} {limit total value : Nat}

/-! ## Blanks around a text -/

/-- A text is another one with nothing but blanks before it and behind it. -/
def Padded (core text : List Char) : Prop :=
  ∃ front back, text = front ++ core ++ back ∧ (∀ blank ∈ front, isBlank blank = true) ∧
    ∀ blank ∈ back, isBlank blank = true

theorem Padded.mem (hpadded : Padded core text) {character : Char} (hmem : character ∈ text)
    (hvisible : isBlank character = false) : character ∈ core := by
  obtain ⟨front, back, rfl, hfront, hback⟩ := hpadded
  rw [List.mem_append, List.mem_append] at hmem
  rcases hmem with (hmem | hmem) | hmem
  · rw [hfront character hmem] at hvisible
    exact absurd hvisible (by decide)
  · exact hmem
  · rw [hback character hmem] at hvisible
    exact absurd hvisible (by decide)

/-- Trimming takes away nothing but blanks. -/
theorem padded_trimBlanks (text : List Char) : Padded (trimBlanks text) text := by
  let behind := text.dropWhile isBlank
  refine ⟨text.takeWhile isBlank, (behind.reverse.takeWhile isBlank).reverse, ?_, ?_, ?_⟩
  · calc
      text = text.takeWhile isBlank ++ behind.reverse.reverse := by
        rw [List.reverse_reverse, List.takeWhile_append_dropWhile]
      _ = text.takeWhile isBlank ++
          (behind.reverse.takeWhile isBlank ++ behind.reverse.dropWhile isBlank).reverse := by
        rw [List.takeWhile_append_dropWhile]
      _ = _ := by
        rw [List.reverse_append, ← List.append_assoc]
        rfl
  · intro blank hblank
    exact List.mem_takeWhile_imp hblank
  · intro blank hblank
    exact List.mem_takeWhile_imp (List.mem_reverse.mp hblank)

theorem dropWhile_append_of_visible {front back : List Char}
    (hfront : ∀ blank ∈ front, isBlank blank = true) (hne : core ≠ [])
    (hvisible : ∀ character ∈ core, isBlank character = false) :
    (front ++ (core ++ back)).dropWhile isBlank = core ++ back := by
  obtain ⟨first, rest, rfl⟩ := List.exists_cons_of_ne_nil hne
  have hfirst : ¬ isBlank first = true :=
    Bool.eq_false_iff.mp (hvisible first List.mem_cons_self)
  rw [List.dropWhile_append_of_pos hfront, List.cons_append, List.dropWhile_cons_of_neg hfirst]

/-- Trimming takes away all blanks around a text without blanks. -/
theorem Padded.trimBlanks_eq (hpadded : Padded core text) (hne : core ≠ [])
    (hvisible : ∀ character ∈ core, isBlank character = false) : trimBlanks text = core := by
  obtain ⟨front, back, rfl, hfront, hback⟩ := hpadded
  have hbefore : (front ++ core ++ back).dropWhile isBlank = core ++ back := by
    rw [List.append_assoc]
    exact dropWhile_append_of_visible hfront hne hvisible
  have hbehind : (core ++ back).reverse.dropWhile isBlank = core.reverse := by
    have hreverse : (back.reverse ++ (core.reverse ++ [])).dropWhile isBlank = core.reverse ++ [] :=
      dropWhile_append_of_visible
        (fun blank hblank => hback blank (List.mem_reverse.mp hblank))
        (List.reverse_ne_nil_iff.mpr hne)
        (fun character hmem => hvisible character (List.mem_reverse.mp hmem))
    rwa [List.append_nil, ← List.reverse_append] at hreverse
  rw [trimBlanks, hbefore, hbehind, List.reverse_reverse]

/-! ## Numerals -/

/-- The written forms of a number: at least one decimal digit, with a plus sign or without. -/
def Numeral (text : List Char) (value : Nat) : Prop :=
  ∃ digits, (text = digits ∨ text = '+' :: digits) ∧ digits ≠ [] ∧
    (∀ digit ∈ digits, digit.isDigit = true) ∧ value = Nat.ofDigitChars 10 digits 0

theorem digit?_eq_some_iff {character : Char} {value : Nat} :
    digit? character = some value ↔
      character.isDigit = true ∧ value = character.toNat - '0'.toNat := by
  rw [digit?, Char.isDigit, Bool.and_eq_true, decide_eq_true_eq, decide_eq_true_eq]
  split
  next hdigit =>
    rw [Option.some.injEq, eq_comm]
    exact (and_iff_right hdigit).symm
  next hother => exact iff_of_false (by simp) fun hboth => hother hboth.1

theorem digit?_of_isDigit {character : Char} (hdigit : character.isDigit = true) :
    digit? character = some (character.toNat - '0'.toNat) :=
  digit?_eq_some_iff.mpr ⟨hdigit, rfl⟩

theorem le_ofDigitChars (digits : List Char) (total : Nat) :
    total ≤ Nat.ofDigitChars 10 digits total := by
  rw [Nat.ofDigitChars_eq_ofDigitChars_zero]
  exact Nat.le_add_right_of_le (Nat.le_mul_of_pos_left _ (Nat.pow_pos (by decide)))

theorem isBlank_eq_false_of_isDigit {character : Char} (hdigit : character.isDigit = true) :
    isBlank character = false := by
  rw [Char.isDigit, Bool.and_eq_true, decide_eq_true_eq, decide_eq_true_eq] at hdigit
  have hlow : 48 ≤ character.toNat := hdigit.1
  have hhigh : character.toNat ≤ 57 := hdigit.2
  simp only [isBlank, blankRuns, List.any_cons, List.any_nil, Bool.or_false, Bool.or_eq_false_iff,
    Bool.and_eq_false_iff, decide_eq_false_iff_not]
  omega

theorem Numeral.ne_nil (hnumeral : Numeral text value) : text ≠ [] := by
  obtain ⟨digits, rfl | rfl, hne, -⟩ := hnumeral
  · exact hne
  · exact List.cons_ne_nil _ _

theorem Numeral.visible (hnumeral : Numeral text value) :
    ∀ character ∈ text, isBlank character = false := by
  obtain ⟨digits, rfl | rfl, -, hdigits, -⟩ := hnumeral
  · exact fun digit hdigit => isBlank_eq_false_of_isDigit (hdigits digit hdigit)
  · rw [List.forall_mem_cons]
    exact ⟨by decide, fun digit hdigit => isBlank_eq_false_of_isDigit (hdigits digit hdigit)⟩

/-! ## Reading -/

/-- As soon as the digits so far exceed the limit, all of them do. -/
theorem readDigits?_eq_some_iff (htotal : total ≤ limit) :
    readDigits? limit total digits = some value ↔
      (∀ digit ∈ digits, digit.isDigit = true) ∧
        value = Nat.ofDigitChars 10 digits total ∧ value ≤ limit := by
  induction digits generalizing total with
  | nil =>
      rw [readDigits?, Option.some.injEq, Nat.ofDigitChars_nil]
      constructor
      · rintro rfl
        exact ⟨by simp, rfl, htotal⟩
      · exact fun hvalue => hvalue.2.1.symm
  | cons first others ih =>
      rw [readDigits?, List.forall_mem_cons, Nat.ofDigitChars_cons, Nat.mul_comm 10 total]
      cases hdigit : digit? first with
      | none =>
          have hother : ¬ first.isDigit = true :=
            fun hisDigit => absurd (digit?_of_isDigit hisDigit) (by simp [hdigit])
          exact iff_of_false (by simp) fun hboth => hother hboth.1.1
      | some digit =>
          obtain ⟨hisDigit, rfl⟩ := digit?_eq_some_iff.mp hdigit
          dsimp only
          rw [and_iff_right hisDigit]
          split
          next hfits => exact ih hfits
          next hexceeds =>
            refine iff_of_false (by simp) ?_
            rintro ⟨-, rfl, hfits⟩
            exact hexceeds ((le_ofDigitChars others _).trans hfits)

theorem readMagnitude?_eq_some_iff :
    readMagnitude? limit digits = some value ↔ digits ≠ [] ∧
      (∀ digit ∈ digits, digit.isDigit = true) ∧
        value = Nat.ofDigitChars 10 digits 0 ∧ value ≤ limit := by
  rw [readMagnitude?, ← readDigits?_eq_some_iff (Nat.zero_le limit)]
  cases digits with
  | nil => simp
  | cons first others => simp

/-- Reading finds the value of a numeral unless it exceeds the limit, and nothing in any other
text. -/
theorem readUnsigned?_eq_some_iff :
    readUnsigned? limit text = some value ↔ Numeral text value ∧ value ≤ limit := by
  rw [readUnsigned?.eq_def]
  split
  next others =>
    rw [readMagnitude?_eq_some_iff]
    constructor
    · rintro ⟨hne, hdigits, hvalue, hfits⟩
      exact ⟨⟨others, Or.inr rfl, hne, hdigits, hvalue⟩, hfits⟩
    · rintro ⟨⟨digits, hsigned | hsigned, hne, hdigits, hvalue⟩, hfits⟩
      · have hplus : '+'.isDigit = true := hdigits '+' (hsigned ▸ List.mem_cons_self)
        exact absurd hplus (by decide)
      · obtain rfl := (List.cons.inj hsigned).2
        exact ⟨hne, hdigits, hvalue, hfits⟩
  next hunsigned =>
    rw [readMagnitude?_eq_some_iff]
    constructor
    · rintro ⟨hne, hdigits, hvalue, hfits⟩
      exact ⟨⟨text, Or.inl rfl, hne, hdigits, hvalue⟩, hfits⟩
    · rintro ⟨⟨digits, hplain | hsigned, hne, hdigits, hvalue⟩, hfits⟩
      · subst hplain
        exact ⟨hne, hdigits, hvalue, hfits⟩
      · exact absurd hsigned (hunsigned digits)

/-- A numeral is read from a text exactly if it stands there among blanks. -/
theorem numeral_trimBlanks_iff :
    Numeral (trimBlanks text) value ↔ ∃ numeral, Padded numeral text ∧ Numeral numeral value := by
  constructor
  · exact fun hnumeral => ⟨_, padded_trimBlanks text, hnumeral⟩
  · rintro ⟨numeral, hpadded, hnumeral⟩
    rwa [hpadded.trimBlanks_eq hnumeral.ne_nil hnumeral.visible]

end Collections.Text
