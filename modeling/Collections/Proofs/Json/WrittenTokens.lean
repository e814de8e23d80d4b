import Mathlib
import Collections.Json.Writer
import Collections.Proofs.Text.Numeral

/-!
# The tokens of a written record

Cutting the text of a record into tokens gives back its names and values, whatever stands
behind them.  A number ends where no character follows that could go on with it, which is what
the ends of the lines see to.
-/

namespace Collections.Json

open Collections.Text (digit? isDigit digit?_of_isDigit le_ofDigitChars)

variable {first : Char} {text rest after : List Char}

/-! ## Single tokens -/

theorem tokens_blank (hblank : isBlank first = true) (rest : List Char) :
    tokens (first :: rest) = tokens rest := by
  rw [tokens.eq_def]
  exact if_pos hblank

theorem isBlank_eq_false_of_isDigit (hdigit : isDigit first = true) : isBlank first = false := by
  rw [← Bool.not_eq_true]
  intro hblank
  simp only [isBlank, Bool.or_eq_true, beq_iff_eq] at hblank
  rcases hblank with ((rfl | rfl) | rfl) | rfl <;> exact absurd hdigit (by decide)

theorem tokens_number (hdigit : isDigit first = true) (hskip : skipNumber first rest = .ok after) :
    tokens (first :: rest) = .number (readNumber (first :: rest)) none :: tokens after := by
  have hvisible : ¬ isBlank first = true := by
    rw [isBlank_eq_false_of_isDigit hdigit]
    exact Bool.false_ne_true
  have hnumber : (first = '-' || isDigit first) = true := by
    rw [hdigit, Bool.or_true]
  rw [tokens.eq_def]
  dsimp only
  rw [if_neg hvisible, if_pos hnumber]
  split
  next found hfound =>
    rw [hskip] at hfound
    rw [Except.ok.inj hfound]
  next fault hfault =>
    rw [hskip] at hfault
    exact absurd hfault (by simp)

theorem tokens_text (hskip : skipText text = .ok after) :
    tokens ('"' :: text) = .text ((readText text).map String.ofList) none :: tokens after := by
  rw [tokens, if_neg (by decide), if_neg (by decide)]
  split
  next found hfound =>
    rw [hskip] at hfound
    rw [Except.ok.inj hfound]
  next fault hfault =>
    rw [hskip] at hfault
    exact absurd hfault (by simp)

theorem tokens_openingObject (rest : List Char) :
    tokens ('\x7b' :: rest) = .opening .object :: tokens rest := by
  rw [tokens, if_neg (by decide), if_neg (by decide)]

theorem tokens_closingObject (rest : List Char) :
    tokens ('\x7d' :: rest) = .closing .object :: tokens rest := by
  rw [tokens, if_neg (by decide), if_neg (by decide)]

theorem tokens_comma (rest : List Char) : tokens (',' :: rest) = .comma :: tokens rest := by
  rw [tokens, if_neg (by decide), if_neg (by decide)]

theorem tokens_colon (rest : List Char) : tokens (':' :: rest) = .colon :: tokens rest := by
  rw [tokens, if_neg (by decide), if_neg (by decide)]

theorem tokens_true (rest : List Char) :
    tokens ('t' :: 'r' :: 'u' :: 'e' :: rest) = .boolean true :: tokens rest := by
  rw [tokens, if_neg (by decide), if_neg (by decide)]
  rfl

theorem tokens_false (rest : List Char) :
    tokens ('f' :: 'a' :: 'l' :: 's' :: 'e' :: rest) = .boolean false :: tokens rest := by
  rw [tokens, if_neg (by decide), if_neg (by decide)]
  rfl

/-! ## Names -/

/-- A character that stands for itself between quotes. -/
structure Plain (character : Char) : Prop where
  ne_quote : character ≠ '"'
  ne_backslash : character ≠ '\\'
  visible : 0x20 ≤ character.toNat

instance (character : Char) : Decidable (Plain character) :=
  decidable_of_iff
    (character ≠ '"' ∧ character ≠ '\\' ∧ 0x20 ≤ character.toNat)
    ⟨fun ⟨hquote, hbackslash, hvisible⟩ => ⟨hquote, hbackslash, hvisible⟩,
      fun hplain => ⟨hplain.ne_quote, hplain.ne_backslash, hplain.visible⟩⟩

theorem skipText_cons (hplain : Plain first) (rest : List Char) :
    skipText (first :: rest) = skipText rest := by
  rw [skipText, if_neg (Nat.not_lt_of_le hplain.visible)]
  · exact hplain.ne_quote
  · exact fun hbackslash _ => hplain.ne_backslash hbackslash
  · exact fun _ hbackslash _ => hplain.ne_backslash hbackslash
  · exact fun _ _ hbackslash _ => hplain.ne_backslash hbackslash

theorem readText_cons (hplain : Plain first) (rest : List Char) :
    readText (first :: rest) = (readText rest).map (first :: ·) := by
  rw [readText, if_neg (Nat.not_lt_of_le hplain.visible)]
  · exact hplain.ne_quote
  · exact fun hbackslash _ => hplain.ne_backslash hbackslash
  · exact fun _ hbackslash _ => hplain.ne_backslash hbackslash
  · exact fun _ _ hbackslash _ => hplain.ne_backslash hbackslash

theorem scanText_plain (hplain : ∀ character ∈ text, Plain character) (rest : List Char) :
    skipText (text ++ '"' :: rest) = .ok rest ∧ readText (text ++ '"' :: rest) = .ok text := by
  induction text with
  | nil => exact ⟨by rw [List.nil_append, skipText], by rw [List.nil_append, readText]⟩
  | cons first others ih =>
      obtain ⟨hfirst, hothers⟩ := List.forall_mem_cons.mp hplain
      obtain ⟨hskip, hread⟩ := ih hothers
      rw [List.cons_append, skipText_cons hfirst, readText_cons hfirst, hskip, hread]
      exact ⟨rfl, rfl⟩

theorem tokens_writeName {name : String} (hplain : ∀ character ∈ name.toList, Plain character)
    (rest : List Char) :
    tokens (writeName name ++ rest) = .text (.ok name) none :: tokens rest := by
  obtain ⟨hskip, hread⟩ := scanText_plain hplain rest
  have hname : writeName name ++ rest = '"' :: (name.toList ++ '"' :: rest) := by
    simp [writeName]
  rw [hname, tokens_text hskip, hread, Except.map, String.ofList_toList]

/-! ## Numbers -/

/-- No character at the front of a text goes on with a number. -/
def endsNumber : List Char → Bool
  | [] => true
  | character :: _ =>
    !(isDigit character || character == '.' || character == 'e' || character == 'E')

theorem isDigit_of_isDigit (hdigit : first.isDigit = true) : isDigit first = true := by
  rw [isDigit, digit?_of_isDigit hdigit]
  rfl

theorem startsWithDigit_of_endsNumber (hends : endsNumber rest = true) :
    startsWithDigit rest = false := by
  cases rest with
  | nil => rfl
  | cons character others =>
      simp only [endsNumber, Bool.not_eq_true', Bool.or_eq_false_iff] at hends
      exact hends.1.1.1

theorem gatherDigits_append (hrest : startsWithDigit rest = false) {digits : List Char}
    (hdigits : ∀ digit ∈ digits, digit.isDigit = true) (significand : Nat)
    (hfits : Nat.ofDigitChars 10 digits significand < UInt64.size) :
    gatherDigits significand (digits ++ rest) =
      (Nat.ofDigitChars 10 digits significand, digits.length, rest) := by
  induction digits generalizing significand with
  | nil =>
      cases rest with
      | nil => rfl
      | cons character others =>
          have hnone : digit? character = none :=
            Option.isNone_iff_eq_none.mp (Option.isSome_eq_false_iff.mp hrest)
          rw [List.nil_append, gatherDigits, hnone]
          rfl
  | cons first others ih =>
      obtain ⟨hfirst, hothers⟩ := List.forall_mem_cons.mp hdigits
      rw [Nat.ofDigitChars_cons, Nat.mul_comm] at hfits ⊢
      have hnext : significand * 10 + (first.toNat - '0'.toNat) < UInt64.size :=
        Nat.lt_of_le_of_lt (le_ofDigitChars others _) hfits
      rw [List.cons_append, gatherDigits, digit?_of_isDigit hfirst]
      dsimp only
      rw [if_pos hnext, ih hothers _ hfits]
      rfl

theorem dropWhile_of_not_startsWithDigit (hrest : startsWithDigit rest = false) :
    rest.dropWhile isDigit = rest ∧ rest.takeWhile isDigit = [] := by
  cases rest with
  | nil => exact ⟨rfl, rfl⟩
  | cons character others =>
      rw [startsWithDigit] at hrest
      rw [List.dropWhile_cons, List.takeWhile_cons, hrest]
      exact ⟨rfl, rfl⟩

theorem readMagnitude_append (hends : endsNumber rest = true) {digits : List Char}
    (hdigits : ∀ digit ∈ digits, digit.isDigit = true) {significand : Nat}
    (hfits : Nat.ofDigitChars 10 digits significand < UInt64.size) :
    readMagnitude false significand (digits ++ rest) =
      .ok (.natural (.ofNat (Nat.ofDigitChars 10 digits significand))) := by
  have hrest := startsWithDigit_of_endsNumber hends
  obtain ⟨hdropped, htaken⟩ := dropWhile_of_not_startsWithDigit hrest
  rw [readMagnitude, gatherDigits_append hrest hdigits significand hfits]
  dsimp only
  rw [hdropped, htaken]
  split
  · exact absurd hends (by simp [endsNumber])
  · exact absurd hends (by simp [endsNumber])
  · exact absurd hends (by simp [endsNumber])
  · rfl

theorem skipAfterWhole_of_ends (hends : endsNumber rest = true) :
    skipAfterWhole rest = .ok rest := by
  rw [skipAfterWhole.eq_def]
  split
  · exact absurd hends (by simp [endsNumber])
  · rw [skipScale.eq_def]
    split
    · exact absurd hends (by simp [endsNumber])
    · exact absurd hends (by simp [endsNumber])
    · rfl

variable {others : List Char}

theorem skipNumber_append (hends : endsNumber rest = true)
    (hdigits : ∀ digit ∈ first :: others, digit.isDigit = true)
    (hzero : first = '0' → others = []) : skipNumber first (others ++ rest) = .ok rest := by
  obtain ⟨hfirst, hothers⟩ := List.forall_mem_cons.mp hdigits
  have hrest := startsWithDigit_of_endsNumber hends
  rw [skipNumber.eq_def, if_pos (isDigit_of_isDigit hfirst), skipAfterDigit]
  split
  next hleading =>
    rw [hzero hleading, List.nil_append, hrest]
    exact skipAfterWhole_of_ends hends
  next hleading =>
    have hall : ∀ digit ∈ others, isDigit digit = true :=
      fun digit hdigit => isDigit_of_isDigit (hothers digit hdigit)
    rw [List.dropWhile_append_of_pos hall, (dropWhile_of_not_startsWithDigit hrest).1]
    exact skipAfterWhole_of_ends hends

theorem readNumber_of_digit (hdigit : first.isDigit = true)
    (hzero : first = '0' → startsWithDigit text = false) :
    readNumber (first :: text) = readMagnitude false (first.toNat - '0'.toNat) text := by
  have hsign : first ≠ '-' := by
    rintro rfl
    exact absurd hdigit (by decide)
  rw [readNumber.eq_def]
  split
  next isNegative digits hparts =>
    split at hparts
    next heq => exact absurd (List.cons.inj heq).1 hsign
    next =>
      obtain ⟨rfl, rfl⟩ := Prod.mk.inj hparts
      split
      next heq => exact absurd heq (List.cons_ne_nil _ _)
      next rest heq =>
        obtain ⟨rfl, rfl⟩ := List.cons.inj heq
        rw [hzero rfl]
        rfl
      next other rest hother heq =>
        obtain ⟨rfl, rfl⟩ := List.cons.inj heq
        rw [digit?_of_isDigit hdigit]

theorem readNumber_append (hends : endsNumber rest = true)
    (hdigits : ∀ digit ∈ first :: others, digit.isDigit = true)
    (hzero : first = '0' → others = [])
    (hfits : Nat.ofDigitChars 10 (first :: others) 0 < UInt64.size) :
    readNumber (first :: (others ++ rest)) =
      .ok (.natural (.ofNat (Nat.ofDigitChars 10 (first :: others) 0))) := by
  -- The first digit is the significand that the other digits are appended to.
  obtain ⟨hfirst, hothers⟩ := List.forall_mem_cons.mp hdigits
  rw [Nat.ofDigitChars_cons, Nat.mul_zero, Nat.zero_add] at hfits ⊢
  rw [readNumber_of_digit hfirst, readMagnitude_append hends hothers hfits]
  intro hleading
  rw [hzero hleading, List.nil_append]
  exact startsWithDigit_of_endsNumber hends

/-- A zero is the only number that starts with a zero. -/
theorem head?_toDigits_ne_zero {number : Nat} (hpositive : 0 < number) :
    (Nat.toDigits 10 number).head? ≠ some '0' := by
  induction number using Nat.strongRecOn with
  | ind number ih =>
      rw [Nat.toDigits_eq_if (by decide)]
      split
      next hsmall =>
        rw [List.head?_singleton]
        interval_cases number <;> decide
      next hlarge =>
        have hquotient : 0 < number / 10 := Nat.div_pos (Nat.le_of_not_lt hlarge) (by decide)
        have hless : number / 10 < number := Nat.div_lt_self hpositive (by decide)
        rw [List.head?_append_of_ne_nil _ Nat.toDigits_ne_nil]
        exact ih _ hless hquotient

theorem tail_toDigits {number : Nat} (hparts : Nat.toDigits 10 number = '0' :: others) :
    others = [] := by
  have hleading : (Nat.toDigits 10 number).head? = some '0' := by rw [hparts, List.head?_cons]
  have hzero : number = 0 := by
    by_contra hnumber
    exact head?_toDigits_ne_zero (Nat.pos_of_ne_zero hnumber) hleading
  rw [hzero, Nat.toDigits_zero] at hparts
  exact (List.cons.inj hparts).2.symm

/-- The digits of a word are read back as the word. -/
theorem tokens_toDigits (hends : endsNumber rest = true) (value : UInt64) :
    tokens (Nat.toDigits 10 value.toNat ++ rest) =
      .number (.ok (.natural value)) none :: tokens rest := by
  have hdigits : ∀ digit ∈ Nat.toDigits 10 value.toNat, digit.isDigit = true :=
    fun digit hdigit => Nat.isDigit_of_mem_toDigits (by decide) (by decide) hdigit
  have hvalue : Nat.ofDigitChars 10 (Nat.toDigits 10 value.toNat) 0 = value.toNat :=
    Nat.ofDigitChars_ten_toDigits
  have hfits : Nat.ofDigitChars 10 (Nat.toDigits 10 value.toNat) 0 < UInt64.size := by
    rw [hvalue]
    exact UInt64.toNat_lt value
  cases hparts : Nat.toDigits 10 value.toNat with
  | nil => exact absurd hparts Nat.toDigits_ne_nil
  | cons first others =>
      have hzero : first = '0' → others = [] := by
        rintro rfl
        exact tail_toDigits hparts
      rw [hparts] at hdigits hvalue hfits
      rw [List.cons_append, tokens_number (isDigit_of_isDigit (hdigits first List.mem_cons_self))
        (skipNumber_append hends hdigits hzero), readNumber_append hends hdigits hzero hfits,
        hvalue, UInt64.ofNat_toNat]

/-! ## Records -/

/-- The token of a value. -/
def valueToken : (kind : FieldKind) → kind.Value → Token
  | .count, value => .number (.ok (.natural value)) none
  | .flag, value => .boolean value

theorem tokens_writeValue (hends : endsNumber rest = true) (kind : FieldKind) (value : kind.Value) :
    tokens (writeValue kind value ++ rest) = valueToken kind value :: tokens rest := by
  cases kind with
  | count => exact tokens_toDigits hends value
  | flag =>
      cases value with
      | true => exact tokens_true rest
      | false => exact tokens_false rest

/-- The name of a field and the token of its value, for each field. -/
def members : (fields : List Field) → Record fields → List (String × Token)
  | [], _ => []
  | field :: fields, record =>
    (field.name, valueToken field.kind record.1) :: members fields record.2

/-- The tokens of the name and the value of a field. -/
def memberTokens (member : String × Token) : List Token :=
  [.text (.ok member.1) none, .colon, member.2]

/-- Names of fields need no escapes. -/
def PlainNames (fields : List Field) : Prop :=
  ∀ field ∈ fields, ∀ character ∈ field.name.toList, Plain character

instance (fields : List Field) : Decidable (PlainNames fields) :=
  inferInstanceAs (Decidable (∀ field ∈ fields, ∀ character ∈ field.name.toList, Plain character))

variable {fields : List Field}

theorem tokens_line {field : Field} (hplain : ∀ character ∈ field.name.toList, Plain character)
    (hends : endsNumber rest = true) (value : field.kind.Value) :
    tokens ([' ', ' '] ++ writeName field.name ++ [':', ' '] ++ writeValue field.kind value ++
        rest) =
      memberTokens (field.name, valueToken field.kind value) ++ tokens rest := by
  simp only [List.append_assoc, List.cons_append, List.nil_append]
  rw [tokens_blank (by decide), tokens_blank (by decide), tokens_writeName hplain, tokens_colon,
    tokens_blank (by decide), tokens_writeValue hends]
  rfl

/-- The lines of the fields give the members, with a comma between any two. -/
theorem tokens_lines (hends : endsNumber rest = true) (hplain : PlainNames fields)
    (record : Record fields) :
    tokens ([',', '\n'].intercalate (writeFields fields record) ++ rest) =
      [Token.comma].intercalate ((members fields record).map memberTokens) ++ tokens rest := by
  induction fields with
  | nil => rfl
  | cons field others ih =>
      obtain ⟨hfield, hothers⟩ := List.forall_mem_cons.mp hplain
      rw [writeFields, members, List.map_cons]
      cases others with
      | nil =>
          rw [writeFields, members, List.map_nil, List.intercalate_singleton,
            List.intercalate_singleton]
          exact tokens_line hfield hends record.1
      | cons next fields =>
          have hlines : writeFields (next :: fields) record.2 ≠ [] := List.cons_ne_nil _ _
          have hmembers : (members (next :: fields) record.2).map memberTokens ≠ [] :=
            List.cons_ne_nil _ _
          rw [List.intercalate_cons_of_ne_nil hlines, List.intercalate_cons_of_ne_nil hmembers,
            List.append_assoc, List.append_assoc, tokens_line hfield rfl, List.cons_append,
            List.cons_append, List.nil_append, tokens_comma, tokens_blank (by decide),
            ih hothers record.2, List.append_assoc, List.append_assoc]
          rfl

/-- The text of a record is an object with the members of the record. -/
theorem tokens_writeRecord {schema : Schema} (hplain : PlainNames schema.fields)
    (record : Record schema.fields) :
    tokens (writeRecord schema record).toList =
      .opening .object ::
        ([Token.comma].intercalate ((members schema.fields record).map memberTokens) ++
          [.closing .object]) := by
  rw [writeRecord, String.toList_ofList, List.append_assoc, List.cons_append, List.cons_append,
    List.nil_append, tokens_openingObject, tokens_blank (by decide), tokens_lines rfl hplain,
    tokens_blank (by decide), tokens_closingObject, tokens]

end Collections.Json
