import Collections.Json.Token
import Collections.Text.Digit

/-!
# Cutting a text into tokens

Numbers and quoted texts each have two scanners.  One reads the value and stops
at the first fault of any kind.  The other passes over the token, minds only its
form, and tells what follows it.
-/

namespace Collections.Json

open Collections.Text (digit? isDigit)

def isBlank (character : Char) : Bool :=
  character == ' ' || character == '\n' || character == '\t' || character == '\r'

def startsWithDigit : List Char → Bool
  | [] => false
  | character :: _ => isDigit character

/-! ## Numbers -/

/-- Appends digits to a significand while it fits 64 bits.  The result is the
significand, the number of digits appended and what follows them. -/
def gatherDigits (significand : Nat) : List Char → Nat × Nat × List Char
  | [] => (significand, 0, [])
  | character :: text =>
    match digit? character with
    | none => (significand, 0, character :: text)
    | some digit =>
      if significand * 10 + digit < UInt64.size then
        let (gathered, count, rest) := gatherDigits (significand * 10 + digit) text
        (gathered, count + 1, rest)
      else
        (significand, 0, character :: text)

def powerOfTen (exponent : Nat) : Float :=
  Float.ofScientific 1 false exponent

/-- The double for `significand * 10 ^ exponent`, rounded once for the significand
and once for each product or quotient.  Divisors beyond the largest double are
split; products beyond it are refused. -/
def scaled? (significand : Nat) (exponent : Int) : Option Float :=
  let value := Float.ofNat significand
  if 308 < exponent then
    if significand = 0 then some 0 else none
  else if 0 ≤ exponent then
    let product := value * powerOfTen exponent.toNat
    if product.isInf then none else some product
  else if -308 ≤ exponent then
    some (value / powerOfTen (-exponent).toNat)
  else if -616 ≤ exponent then
    some (value / powerOfTen 308 / powerOfTen (-exponent - 308).toNat)
  else
    some 0

def floating (isNegative : Bool) (significand : Nat) (exponent : Int) : Except Fault Number :=
  match scaled? significand exponent with
  | some value => .ok (.floating (if isNegative then -value else value))
  | none => .error .numberTooLarge

/-- Reads what follows the letter of an exponent. -/
def readExponent (isNegative : Bool) (significand : Nat) (exponent : Int) (text : List Char) :
    Except Fault Number :=
  let (goesDown, digits) :=
    match text with
    | '+' :: rest => (false, rest)
    | '-' :: rest => (true, rest)
    | _ => (false, text)
  match digits with
  | [] => .error (.unfinished .value)
  | first :: _ =>
    if isDigit first then
      let shift := (digits.takeWhile isDigit).foldl
        (fun total character => total * 10 + (digit? character).getD 0) 0
      floating isNegative significand (if goesDown then exponent - shift else exponent + shift)
    else
      .error .malformedNumber

/-- Reads an exponent, if there is one. -/
def readScale (isNegative : Bool) (significand : Nat) (exponent : Int) (text : List Char) :
    Except Fault Number :=
  match text with
  | 'e' :: rest | 'E' :: rest => readExponent isNegative significand exponent rest
  | _ => floating isNegative significand exponent

/-- Reads what follows the point.  Digits that no longer fit are passed over. -/
def readFraction (isNegative : Bool) (significand : Nat) (exponent : Int) (text : List Char) :
    Except Fault Number :=
  let (gathered, count, rest) := gatherDigits significand text
  if startsWithDigit rest then
    readScale isNegative gathered (exponent - count) (rest.dropWhile isDigit)
  else if count = 0 then
    .error (if rest.isEmpty then .unfinished .value else .malformedNumber)
  else
    readScale isNegative gathered (exponent - count) rest

/-- An integer, or a double where it fits neither an unsigned nor a signed word,
or is a negative zero. -/
def integer (isNegative : Bool) (magnitude : Nat) : Except Fault Number :=
  if isNegative then
    if 0 < magnitude ∧ magnitude ≤ UInt64.size / 2 then
      .ok (.negative (Int64.ofInt (-(Int.ofNat magnitude))))
    else
      floating true magnitude 0
  else
    .ok (.natural (UInt64.ofNat magnitude))

/-- Reads the digits of a number that starts with the given one. -/
def readMagnitude (isNegative : Bool) (first : Nat) (text : List Char) : Except Fault Number :=
  let (gathered, _, rest) := gatherDigits first text
  let dropped := rest.takeWhile isDigit
  match rest.dropWhile isDigit with
  | '.' :: fraction => readFraction isNegative gathered dropped.length fraction
  | 'e' :: exponent | 'E' :: exponent =>
    readExponent isNegative gathered dropped.length exponent
  | _ =>
    if dropped.isEmpty then integer isNegative gathered
    else floating isNegative gathered dropped.length

/-- Reads the number at the front of a text.  A zero has no digit after it. -/
def readNumber (text : List Char) : Except Fault Number :=
  let (isNegative, digits) :=
    match text with
    | '-' :: rest => (true, rest)
    | _ => (false, text)
  match digits with
  | [] => .error (.unfinished .value)
  | '0' :: rest =>
    if startsWithDigit rest then .error .malformedNumber else readMagnitude isNegative 0 rest
  | first :: rest =>
    match digit? first with
    | some digit => readMagnitude isNegative digit rest
    | none => .error .malformedNumber

/-- Passes over at least one digit. -/
def skipDigits (text : List Char) : Except Fault (List Char) :=
  if startsWithDigit text then .ok (text.dropWhile isDigit) else .error .malformedNumber

def skipExponent (text : List Char) : Except Fault (List Char) :=
  match text with
  | '+' :: rest | '-' :: rest => skipDigits rest
  | _ => skipDigits text

def skipScale (text : List Char) : Except Fault (List Char) :=
  match text with
  | 'e' :: rest | 'E' :: rest => skipExponent rest
  | _ => .ok text

def skipFraction (text : List Char) : Except Fault (List Char) :=
  match skipDigits text with
  | .ok rest => skipScale rest
  | .error fault => .error fault

/-- Passes over what follows the whole part of a number. -/
def skipAfterWhole (text : List Char) : Except Fault (List Char) :=
  match text with
  | '.' :: rest => skipFraction rest
  | _ => skipScale text

/-- Passes over what follows the first digit of a number. -/
def skipAfterDigit (first : Char) (text : List Char) : Except Fault (List Char) :=
  if first = '0' then
    if startsWithDigit text then .error .malformedNumber else skipAfterWhole text
  else
    skipAfterWhole (text.dropWhile isDigit)

/-- Passes over what follows the first character of a number, which may be its sign. -/
def skipNumber (first : Char) (text : List Char) : Except Fault (List Char) :=
  if isDigit first then
    skipAfterDigit first text
  else
    match text with
    | [] => .error .malformedNumber
    | digit :: rest =>
      if isDigit digit then skipAfterDigit digit rest else .error .malformedNumber

/-! ## Texts -/

/-- The character that a letter stands for after a backslash. -/
def escaped? : Char → Option Char
  | '"' => some '"'
  | '\\' => some '\\'
  | '/' => some '/'
  | 'b' => some '\x08'
  | 'f' => some '\x0c'
  | 'n' => some '\n'
  | 'r' => some '\r'
  | 't' => some '\t'
  | _ => none

def hexDigit? (character : Char) : Option Nat :=
  if '0' ≤ character ∧ character ≤ '9' then some (character.toNat - '0'.toNat)
  else if 'a' ≤ character ∧ character ≤ 'f' then some (character.toNat - 'a'.toNat + 10)
  else if 'A' ≤ character ∧ character ≤ 'F' then some (character.toNat - 'A'.toNat + 10)
  else none

/-- The 16-bit unit written in the next four places, which are counted in bytes. -/
def codeUnit (text : List Char) : Except Fault Nat :=
  match (text.take 4).mapM hexDigit? with
  | some [first, second, third, fourth] =>
    .ok (((first * 16 + second) * 16 + third) * 16 + fourth)
  | _ =>
    if (String.ofList (text.take 4)).utf8ByteSize < 4 then .error (.unfinished .text)
    else .error .malformedEscape

def isLeadingSurrogate (codeUnit : Nat) : Bool :=
  0xd800 ≤ codeUnit && codeUnit < 0xdc00

def isTrailingSurrogate (codeUnit : Nat) : Bool :=
  0xdc00 ≤ codeUnit && codeUnit < 0xe000

/-- Reads the characters up to the closing quote. -/
def readText (text : List Char) : Except Fault (List Char) :=
  match text with
  | [] => .error (.unfinished .text)
  | '"' :: _ => .ok []
  | ['\\'] => .error (.unfinished .text)
  | '\\' :: 'u' :: digits =>
    match codeUnit digits with
    | .error fault => .error fault
    | .ok leading =>
      if isTrailingSurrogate leading then
        .error .loneSurrogate
      else if isLeadingSurrogate leading then
        match _hpair : digits.drop 4 with
        | [] | ['\\'] => .error (.unfinished .text)
        | '\\' :: 'u' :: others =>
          match codeUnit others with
          | .error fault => .error fault
          | .ok trailing =>
            if isTrailingSurrogate trailing then
              (readText (others.drop 4)).map
                (Char.ofNat (0x10000 + (leading - 0xd800) * 0x400 + (trailing - 0xdc00)) :: ·)
            else
              .error .loneSurrogate
        | _ => .error .unfinishedSurrogatePair
      else
        (readText (digits.drop 4)).map (Char.ofNat leading :: ·)
  | '\\' :: letter :: rest =>
    match escaped? letter with
    | some character => (readText rest).map (character :: ·)
    | none => .error .malformedEscape
  | character :: rest =>
    if character.toNat < 0x20 then .error .controlCharacter
    else (readText rest).map (character :: ·)
termination_by text.length
decreasing_by
  · have hlength := congrArg List.length _hpair
    simp only [List.length_drop, List.length_cons] at hlength ⊢
    omega
  all_goals
    simp only [List.length_drop, List.length_cons]
    omega

/-- Passes over the characters up to the closing quote and tells what follows it. -/
def skipText (text : List Char) : Except Fault (List Char) :=
  match text with
  | [] => .error (.unfinished .text)
  | '"' :: rest => .ok rest
  | ['\\'] => .error (.unfinished .text)
  | '\\' :: 'u' :: digits =>
    match codeUnit digits with
    | .error fault => .error fault
    | .ok _ => skipText (digits.drop 4)
  | '\\' :: letter :: rest =>
    if (escaped? letter).isSome then skipText rest else .error .malformedEscape
  | character :: rest =>
    if character.toNat < 0x20 then .error .controlCharacter else skipText rest
termination_by text.length
decreasing_by
  all_goals
    simp only [List.length_drop, List.length_cons]
    omega

/-! ## Words -/

/-- Compares a text letter by letter with the rest of a word and tells what follows. -/
def skipWord : List Char → List Char → Except Fault (List Char)
  | [], text => .ok text
  | _ :: _, [] => .error (.unfinished .value)
  | letter :: word, character :: text =>
    if character = letter then skipWord word text else .error .expectedWord

/-! ## What follows is never longer -/

theorem length_dropWhile_le (text : List Char) (condition : Char → Bool) :
    (text.dropWhile condition).length ≤ text.length :=
  (List.dropWhile_suffix condition).length_le

theorem length_skipDigits {text rest : List Char} (hskip : skipDigits text = .ok rest) :
    rest.length ≤ text.length := by
  unfold skipDigits at hskip
  split at hskip
  · injection hskip with hrest
    rw [← hrest]
    exact length_dropWhile_le text isDigit
  · contradiction

theorem length_skipExponent {text rest : List Char} (hskip : skipExponent text = .ok rest) :
    rest.length ≤ text.length := by
  unfold skipExponent at hskip
  split at hskip
  · exact Nat.le_succ_of_le (length_skipDigits hskip)
  · exact Nat.le_succ_of_le (length_skipDigits hskip)
  · exact length_skipDigits hskip

theorem length_skipScale {text rest : List Char} (hskip : skipScale text = .ok rest) :
    rest.length ≤ text.length := by
  unfold skipScale at hskip
  split at hskip
  · exact Nat.le_succ_of_le (length_skipExponent hskip)
  · exact Nat.le_succ_of_le (length_skipExponent hskip)
  · injection hskip with hrest
    exact Nat.le_of_eq (congrArg List.length hrest.symm)

theorem length_skipFraction {text rest : List Char} (hskip : skipFraction text = .ok rest) :
    rest.length ≤ text.length := by
  unfold skipFraction at hskip
  split at hskip
  next after hafter =>
    exact Nat.le_trans (length_skipScale hskip) (length_skipDigits hafter)
  · contradiction

theorem length_skipAfterWhole {text rest : List Char} (hskip : skipAfterWhole text = .ok rest) :
    rest.length ≤ text.length := by
  unfold skipAfterWhole at hskip
  split at hskip
  · have hlength := length_skipFraction hskip
    simp only [List.length_cons]
    omega
  · exact length_skipScale hskip

theorem length_skipAfterDigit {first : Char} {text rest : List Char}
    (hskip : skipAfterDigit first text = .ok rest) : rest.length ≤ text.length := by
  unfold skipAfterDigit at hskip
  split at hskip
  · split at hskip
    · contradiction
    · exact length_skipAfterWhole hskip
  · exact Nat.le_trans (length_skipAfterWhole hskip) (length_dropWhile_le text isDigit)

theorem length_skipNumber {first : Char} {text rest : List Char}
    (hskip : skipNumber first text = .ok rest) : rest.length ≤ text.length := by
  unfold skipNumber at hskip
  split at hskip
  · exact length_skipAfterDigit hskip
  · split at hskip
    · contradiction
    · split at hskip
      · have hlength := length_skipAfterDigit hskip
        simp only [List.length_cons]
        omega
      · contradiction

theorem length_skipText {text rest : List Char} (hskip : skipText text = .ok rest) :
    rest.length ≤ text.length := by
  fun_induction skipText text <;> simp_all <;> omega

theorem length_skipWord {word text rest : List Char} (hskip : skipWord word text = .ok rest) :
    rest.length ≤ text.length := by
  fun_induction skipWord word text with
  | case1 text =>
    injection hskip with hrest
    exact Nat.le_of_eq (congrArg List.length hrest.symm)
  | case2 => contradiction
  | case3 letter word text ih => exact Nat.le_succ_of_le (ih hskip)
  | case4 => contradiction

/-! ## Tokens -/

/-- Cuts a text into its tokens.  Nothing follows a token whose form is wrong. -/
def tokens (text : List Char) : List Token :=
  match text with
  | [] => []
  | first :: rest =>
    if isBlank first then
      tokens rest
    else if first = '-' || isDigit first then
      match _hskip : skipNumber first rest with
      | .ok after => .number (readNumber (first :: rest)) none :: tokens after
      | .error fault => [.number (readNumber (first :: rest)) (some fault)]
    else
      match first with
      | '[' => .opening .list :: tokens rest
      | ']' => .closing .list :: tokens rest
      | '\x7b' => .opening .object :: tokens rest
      | '\x7d' => .closing .object :: tokens rest
      | ',' => .comma :: tokens rest
      | ':' => .colon :: tokens rest
      | '"' =>
        match _hskip : skipText rest with
        | .ok after => .text ((readText rest).map String.ofList) none :: tokens after
        | .error fault => [.text ((readText rest).map String.ofList) (some fault)]
      | 'n' =>
        match _hskip : skipWord ['u', 'l', 'l'] rest with
        | .ok after => .null :: tokens after
        | .error fault => [.broken fault]
      | 't' =>
        match _hskip : skipWord ['r', 'u', 'e'] rest with
        | .ok after => .boolean true :: tokens after
        | .error fault => [.broken fault]
      | 'f' =>
        match _hskip : skipWord ['a', 'l', 's', 'e'] rest with
        | .ok after => .boolean false :: tokens after
        | .error fault => [.broken fault]
      | _ => .stray :: tokens rest
termination_by text.length
decreasing_by
  all_goals
    first
    | (have hlength := length_skipNumber _hskip
       simp only [List.length_cons]
       omega)
    | (have hlength := length_skipText _hskip
       simp only [List.length_cons]
       omega)
    | (have hlength := length_skipWord _hskip
       simp only [List.length_cons]
       omega)
    | (simp only [List.length_cons]
       omega)

end Collections.Json
