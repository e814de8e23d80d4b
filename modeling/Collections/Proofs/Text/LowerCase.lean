import Mathlib
import Collections.Settings.Environment
import Collections.Proofs.Text.Numeral

/-!
# Texts in lower case

The lower-case form of a text by the mapping of all characters, and what it means for the words
that switch a flag on.  Only Latin letters have a form in these words: of the other characters two
have a Latin letter in their form, and it is not a letter of the words.  So it is enough to change
the case of Latin letters.
-/

namespace Collections

namespace Text

/-- Characters at equal steps, whose lower-case forms are at the same steps. -/
structure CaseRun where
  first : Nat
  last : Nat
  step : Nat
  /-- The form of the first character. -/
  lower : Nat

def CaseRun.covers (run : CaseRun) (code : Nat) : Bool :=
  run.first ≤ code && code ≤ run.last && (code - run.first) % run.step == 0

/-- The characters whose lower-case form is one other character (Unicode 15). -/
def caseRuns : List CaseRun :=
  [⟨0x41, 0x5a, 1, 0x61⟩, ⟨0xc0, 0xd6, 1, 0xe0⟩, ⟨0xd8, 0xde, 1, 0xf8⟩, ⟨0x100, 0x12e, 2, 0x101⟩,
    ⟨0x132, 0x136, 2, 0x133⟩, ⟨0x139, 0x147, 2, 0x13a⟩, ⟨0x14a, 0x176, 2, 0x14b⟩,
    ⟨0x178, 0x178, 1, 0xff⟩, ⟨0x179, 0x17d, 2, 0x17a⟩, ⟨0x181, 0x181, 1, 0x253⟩,
    ⟨0x182, 0x184, 2, 0x183⟩, ⟨0x186, 0x186, 1, 0x254⟩, ⟨0x187, 0x187, 1, 0x188⟩,
    ⟨0x189, 0x18a, 1, 0x256⟩, ⟨0x18b, 0x18b, 1, 0x18c⟩, ⟨0x18e, 0x18e, 1, 0x1dd⟩,
    ⟨0x18f, 0x18f, 1, 0x259⟩, ⟨0x190, 0x190, 1, 0x25b⟩, ⟨0x191, 0x191, 1, 0x192⟩,
    ⟨0x193, 0x193, 1, 0x260⟩, ⟨0x194, 0x194, 1, 0x263⟩, ⟨0x196, 0x196, 1, 0x269⟩,
    ⟨0x197, 0x197, 1, 0x268⟩, ⟨0x198, 0x198, 1, 0x199⟩, ⟨0x19c, 0x19c, 1, 0x26f⟩,
    ⟨0x19d, 0x19d, 1, 0x272⟩, ⟨0x19f, 0x19f, 1, 0x275⟩, ⟨0x1a0, 0x1a4, 2, 0x1a1⟩,
    ⟨0x1a6, 0x1a6, 1, 0x280⟩, ⟨0x1a7, 0x1a7, 1, 0x1a8⟩, ⟨0x1a9, 0x1a9, 1, 0x283⟩,
    ⟨0x1ac, 0x1ac, 1, 0x1ad⟩, ⟨0x1ae, 0x1ae, 1, 0x288⟩, ⟨0x1af, 0x1af, 1, 0x1b0⟩,
    ⟨0x1b1, 0x1b2, 1, 0x28a⟩, ⟨0x1b3, 0x1b5, 2, 0x1b4⟩, ⟨0x1b7, 0x1b7, 1, 0x292⟩,
    ⟨0x1b8, 0x1b8, 1, 0x1b9⟩, ⟨0x1bc, 0x1bc, 1, 0x1bd⟩, ⟨0x1c4, 0x1c4, 1, 0x1c6⟩,
    ⟨0x1c5, 0x1c5, 1, 0x1c6⟩, ⟨0x1c7, 0x1c7, 1, 0x1c9⟩, ⟨0x1c8, 0x1c8, 1, 0x1c9⟩,
    ⟨0x1ca, 0x1ca, 1, 0x1cc⟩, ⟨0x1cb, 0x1db, 2, 0x1cc⟩, ⟨0x1de, 0x1ee, 2, 0x1df⟩,
    ⟨0x1f1, 0x1f1, 1, 0x1f3⟩, ⟨0x1f2, 0x1f4, 2, 0x1f3⟩, ⟨0x1f6, 0x1f6, 1, 0x195⟩,
    ⟨0x1f7, 0x1f7, 1, 0x1bf⟩, ⟨0x1f8, 0x21e, 2, 0x1f9⟩, ⟨0x220, 0x220, 1, 0x19e⟩,
    ⟨0x222, 0x232, 2, 0x223⟩, ⟨0x23a, 0x23a, 1, 0x2c65⟩, ⟨0x23b, 0x23b, 1, 0x23c⟩,
    ⟨0x23d, 0x23d, 1, 0x19a⟩, ⟨0x23e, 0x23e, 1, 0x2c66⟩, ⟨0x241, 0x241, 1, 0x242⟩,
    ⟨0x243, 0x243, 1, 0x180⟩, ⟨0x244, 0x244, 1, 0x289⟩, ⟨0x245, 0x245, 1, 0x28c⟩,
    ⟨0x246, 0x24e, 2, 0x247⟩, ⟨0x370, 0x372, 2, 0x371⟩, ⟨0x376, 0x376, 1, 0x377⟩,
    ⟨0x37f, 0x37f, 1, 0x3f3⟩, ⟨0x386, 0x386, 1, 0x3ac⟩, ⟨0x388, 0x38a, 1, 0x3ad⟩,
    ⟨0x38c, 0x38c, 1, 0x3cc⟩, ⟨0x38e, 0x38f, 1, 0x3cd⟩, ⟨0x391, 0x3a1, 1, 0x3b1⟩,
    ⟨0x3a3, 0x3ab, 1, 0x3c3⟩, ⟨0x3cf, 0x3cf, 1, 0x3d7⟩, ⟨0x3d8, 0x3ee, 2, 0x3d9⟩,
    ⟨0x3f4, 0x3f4, 1, 0x3b8⟩, ⟨0x3f7, 0x3f7, 1, 0x3f8⟩, ⟨0x3f9, 0x3f9, 1, 0x3f2⟩,
    ⟨0x3fa, 0x3fa, 1, 0x3fb⟩, ⟨0x3fd, 0x3ff, 1, 0x37b⟩, ⟨0x400, 0x40f, 1, 0x450⟩,
    ⟨0x410, 0x42f, 1, 0x430⟩, ⟨0x460, 0x480, 2, 0x461⟩, ⟨0x48a, 0x4be, 2, 0x48b⟩,
    ⟨0x4c0, 0x4c0, 1, 0x4cf⟩, ⟨0x4c1, 0x4cd, 2, 0x4c2⟩, ⟨0x4d0, 0x52e, 2, 0x4d1⟩,
    ⟨0x531, 0x556, 1, 0x561⟩, ⟨0x10a0, 0x10c5, 1, 0x2d00⟩, ⟨0x10c7, 0x10c7, 1, 0x2d27⟩,
    ⟨0x10cd, 0x10cd, 1, 0x2d2d⟩, ⟨0x13a0, 0x13ef, 1, 0xab70⟩, ⟨0x13f0, 0x13f5, 1, 0x13f8⟩,
    ⟨0x1c90, 0x1cba, 1, 0x10d0⟩, ⟨0x1cbd, 0x1cbf, 1, 0x10fd⟩, ⟨0x1e00, 0x1e94, 2, 0x1e01⟩,
    ⟨0x1e9e, 0x1e9e, 1, 0xdf⟩, ⟨0x1ea0, 0x1efe, 2, 0x1ea1⟩, ⟨0x1f08, 0x1f0f, 1, 0x1f00⟩,
    ⟨0x1f18, 0x1f1d, 1, 0x1f10⟩, ⟨0x1f28, 0x1f2f, 1, 0x1f20⟩, ⟨0x1f38, 0x1f3f, 1, 0x1f30⟩,
    ⟨0x1f48, 0x1f4d, 1, 0x1f40⟩, ⟨0x1f59, 0x1f5f, 2, 0x1f51⟩, ⟨0x1f68, 0x1f6f, 1, 0x1f60⟩,
    ⟨0x1f88, 0x1f8f, 1, 0x1f80⟩, ⟨0x1f98, 0x1f9f, 1, 0x1f90⟩, ⟨0x1fa8, 0x1faf, 1, 0x1fa0⟩,
    ⟨0x1fb8, 0x1fb9, 1, 0x1fb0⟩, ⟨0x1fba, 0x1fbb, 1, 0x1f70⟩, ⟨0x1fbc, 0x1fbc, 1, 0x1fb3⟩,
    ⟨0x1fc8, 0x1fcb, 1, 0x1f72⟩, ⟨0x1fcc, 0x1fcc, 1, 0x1fc3⟩, ⟨0x1fd8, 0x1fd9, 1, 0x1fd0⟩,
    ⟨0x1fda, 0x1fdb, 1, 0x1f76⟩, ⟨0x1fe8, 0x1fe9, 1, 0x1fe0⟩, ⟨0x1fea, 0x1feb, 1, 0x1f7a⟩,
    ⟨0x1fec, 0x1fec, 1, 0x1fe5⟩, ⟨0x1ff8, 0x1ff9, 1, 0x1f78⟩, ⟨0x1ffa, 0x1ffb, 1, 0x1f7c⟩,
    ⟨0x1ffc, 0x1ffc, 1, 0x1ff3⟩, ⟨0x2126, 0x2126, 1, 0x3c9⟩, ⟨0x212a, 0x212a, 1, 0x6b⟩,
    ⟨0x212b, 0x212b, 1, 0xe5⟩, ⟨0x2132, 0x2132, 1, 0x214e⟩, ⟨0x2160, 0x216f, 1, 0x2170⟩,
    ⟨0x2183, 0x2183, 1, 0x2184⟩, ⟨0x24b6, 0x24cf, 1, 0x24d0⟩, ⟨0x2c00, 0x2c2f, 1, 0x2c30⟩,
    ⟨0x2c60, 0x2c60, 1, 0x2c61⟩, ⟨0x2c62, 0x2c62, 1, 0x26b⟩, ⟨0x2c63, 0x2c63, 1, 0x1d7d⟩,
    ⟨0x2c64, 0x2c64, 1, 0x27d⟩, ⟨0x2c67, 0x2c6b, 2, 0x2c68⟩, ⟨0x2c6d, 0x2c6d, 1, 0x251⟩,
    ⟨0x2c6e, 0x2c6e, 1, 0x271⟩, ⟨0x2c6f, 0x2c6f, 1, 0x250⟩, ⟨0x2c70, 0x2c70, 1, 0x252⟩,
    ⟨0x2c72, 0x2c72, 1, 0x2c73⟩, ⟨0x2c75, 0x2c75, 1, 0x2c76⟩, ⟨0x2c7e, 0x2c7f, 1, 0x23f⟩,
    ⟨0x2c80, 0x2ce2, 2, 0x2c81⟩, ⟨0x2ceb, 0x2ced, 2, 0x2cec⟩, ⟨0x2cf2, 0x2cf2, 1, 0x2cf3⟩,
    ⟨0xa640, 0xa66c, 2, 0xa641⟩, ⟨0xa680, 0xa69a, 2, 0xa681⟩, ⟨0xa722, 0xa72e, 2, 0xa723⟩,
    ⟨0xa732, 0xa76e, 2, 0xa733⟩, ⟨0xa779, 0xa77b, 2, 0xa77a⟩, ⟨0xa77d, 0xa77d, 1, 0x1d79⟩,
    ⟨0xa77e, 0xa786, 2, 0xa77f⟩, ⟨0xa78b, 0xa78b, 1, 0xa78c⟩, ⟨0xa78d, 0xa78d, 1, 0x265⟩,
    ⟨0xa790, 0xa792, 2, 0xa791⟩, ⟨0xa796, 0xa7a8, 2, 0xa797⟩, ⟨0xa7aa, 0xa7aa, 1, 0x266⟩,
    ⟨0xa7ab, 0xa7ab, 1, 0x25c⟩, ⟨0xa7ac, 0xa7ac, 1, 0x261⟩, ⟨0xa7ad, 0xa7ad, 1, 0x26c⟩,
    ⟨0xa7ae, 0xa7ae, 1, 0x26a⟩, ⟨0xa7b0, 0xa7b0, 1, 0x29e⟩, ⟨0xa7b1, 0xa7b1, 1, 0x287⟩,
    ⟨0xa7b2, 0xa7b2, 1, 0x29d⟩, ⟨0xa7b3, 0xa7b3, 1, 0xab53⟩, ⟨0xa7b4, 0xa7c2, 2, 0xa7b5⟩,
    ⟨0xa7c4, 0xa7c4, 1, 0xa794⟩, ⟨0xa7c5, 0xa7c5, 1, 0x282⟩, ⟨0xa7c6, 0xa7c6, 1, 0x1d8e⟩,
    ⟨0xa7c7, 0xa7c9, 2, 0xa7c8⟩, ⟨0xa7d0, 0xa7d0, 1, 0xa7d1⟩, ⟨0xa7d6, 0xa7d8, 2, 0xa7d7⟩,
    ⟨0xa7f5, 0xa7f5, 1, 0xa7f6⟩, ⟨0xff21, 0xff3a, 1, 0xff41⟩, ⟨0x10400, 0x10427, 1, 0x10428⟩,
    ⟨0x104b0, 0x104d3, 1, 0x104d8⟩, ⟨0x10570, 0x1057a, 1, 0x10597⟩, ⟨0x1057c, 0x1058a, 1, 0x105a3⟩,
    ⟨0x1058c, 0x10592, 1, 0x105b3⟩, ⟨0x10594, 0x10595, 1, 0x105bb⟩, ⟨0x10c80, 0x10cb2, 1, 0x10cc0⟩,
    ⟨0x118a0, 0x118bf, 1, 0x118c0⟩, ⟨0x16e40, 0x16e5f, 1, 0x16e60⟩, ⟨0x1e900, 0x1e921, 1, 0x1e922⟩]

/-- The lower-case form of a character by itself. -/
def lowerCharacter (character : Char) : Char :=
  match caseRuns.find? (·.covers character.toNat) with
  | some run => .ofNat (run.lower + (character.toNat - run.first))
  | none => character

/-- The lower-case form of a character in a text.  A capital sigma has another one at the end of a
word, and the form of a capital I with a dot keeps the dot as a character of its own. -/
def lowerForm (final : Bool) (character : Char) : List Char :=
  if character = '\u0130' then ['i', '\u0307']
  else if final && character == '\u03a3' then ['\u03c2']
  else [lowerCharacter character]

/-- The lower-case form of a text behind other characters, which are listed from the last one to
the first one.  Whether a character ends a word may depend on all that stands before it and behind
it. -/
def lowerCaseBehind (endsWord : List Char → List Char → Bool) (before : List Char) :
    List Char → List Char
  | [] => []
  | character :: behind =>
    lowerForm (endsWord before behind) character ++
      lowerCaseBehind endsWord (character :: before) behind

/-- A text in lower case. -/
def lowerCase (endsWord : List Char → List Char → Bool) (text : List Char) : List Char :=
  lowerCaseBehind endsWord [] text

/-! ## Characters -/

variable {character : Char} {text : List Char}

theorem toLower_eq_self (hother : character.toNat < 65 ∨ 90 < character.toNat) :
    character.toLower = character := by
  rw [Char.toLower, dif_neg]
  rintro ⟨hlow, hhigh⟩
  have hfirst : 65 ≤ character.toNat := hlow
  have hlast : character.toNat ≤ 90 := hhigh
  omega

/-- No run has a blank between its first and its last character. -/
theorem lowerCharacter_of_isBlank (hblank : isBlank character = true) :
    lowerCharacter character = character := by
  have happart : ∀ run ∈ caseRuns, ∀ blanks ∈ blankRuns,
      run.last < blanks.1 ∨ blanks.2 < run.first := by decide +kernel
  have hnone : caseRuns.find? (·.covers character.toNat) = none := by
    rw [List.find?_eq_none]
    intro run hrun hcovers
    obtain ⟨blanks, hblanks, hwithin⟩ := List.any_eq_true.mp hblank
    simp only [Bool.and_eq_true, decide_eq_true_eq] at hwithin
    simp only [CaseRun.covers, Bool.and_eq_true, decide_eq_true_eq] at hcovers
    have hbeside := happart run hrun blanks hblanks
    omega
  rw [lowerCharacter, hnone]

theorem toLower_of_isBlank (hblank : isBlank character = true) :
    character.toLower = character := by
  apply toLower_eq_self
  simp only [isBlank, blankRuns, List.any_cons, List.any_nil, Bool.or_false, Bool.or_eq_true,
    Bool.and_eq_true, decide_eq_true_eq] at hblank
  omega

theorem lowerCharacter_of_lt (hascii : character.toNat < 128) :
    lowerCharacter character = character.toLower := by
  have hall : ∀ code < 128, lowerCharacter (.ofNat code) = (Char.ofNat code).toLower := by
    decide +kernel
  have hthis := hall character.toNat hascii
  rwa [Char.ofNat_toNat] at hthis

/-- The characters whose case is changed as that of Latin letters is. -/
def IsPlain (character : Char) : Prop :=
  character.toNat < 128 ∨ isBlank character = true

theorem lowerForm_of_isPlain (hplain : IsPlain character) (final : Bool) :
    lowerForm final character = [character.toLower] := by
  have hdotted : character ≠ '\u0130' := by
    rintro rfl
    exact absurd hplain (by rw [IsPlain]; decide)
  have hsigma : ¬ (final && character == '\u03a3') = true := by
    rw [Bool.and_eq_true, beq_iff_eq]
    rintro ⟨-, rfl⟩
    exact absurd hplain (by rw [IsPlain]; decide)
  rw [lowerForm, if_neg hdotted, if_neg hsigma]
  rcases hplain with hascii | hblank
  · rw [lowerCharacter_of_lt hascii]
  · rw [lowerCharacter_of_isBlank hblank, toLower_of_isBlank hblank]

/-- The characters that stand in the lower-case forms of others, as far as they are not blank. -/
def IsForeign (character : Char) : Prop :=
  isBlank character = false ∧ (128 ≤ character.toNat ∨ character = 'i' ∨ character = 'k')

/-- The forms of a run beyond Latin letters are visible characters beyond them, or the letter k. -/
def CaseRun.LeadsAbroad (run : CaseRun) : Prop :=
  (run.first = run.last ∧ run.lower = 'k'.toNat) ∨
    128 ≤ run.lower ∧
      (run.lower + (run.last - run.first) < 0xd800 ∨
        0xdfff < run.lower ∧ run.lower + (run.last - run.first) < 0x110000) ∧
      ∀ blanks ∈ blankRuns,
        run.lower + (run.last - run.first) < blanks.1 ∨ blanks.2 < run.lower

instance (run : CaseRun) : Decidable run.LeadsAbroad :=
  inferInstanceAs (Decidable (_ ∨ _))

theorem leadsAbroad_of_mem {run : CaseRun} (hrun : run ∈ caseRuns) (hlast : 128 ≤ run.last) :
    run.LeadsAbroad := by
  have hall : ∀ run ∈ caseRuns, 128 ≤ run.last → run.LeadsAbroad := by decide +kernel
  exact hall run hrun hlast

theorem CaseRun.LeadsAbroad.isForeign {run : CaseRun} (habroad : run.LeadsAbroad) {offset : Nat}
    (hoffset : offset ≤ run.last - run.first) : IsForeign (.ofNat (run.lower + offset)) := by
  rcases habroad with ⟨hone, hlower⟩ | ⟨hlower, hvalid, hvisible⟩
  · obtain rfl : offset = 0 := by omega
    rw [hlower, Nat.add_zero, Char.ofNat_toNat]
    exact ⟨by decide, Or.inr (Or.inr rfl)⟩
  · have hcode : (Char.ofNat (run.lower + offset)).toNat = run.lower + offset := by
      rw [Char.toNat_ofNat, if_pos]
      rw [Nat.isValidChar]
      omega
    refine ⟨?_, Or.inl (by omega)⟩
    rw [isBlank, List.any_eq_false]
    intro blanks hblanks
    have hbeside := hvisible blanks hblanks
    simp only [hcode, Bool.and_eq_true, decide_eq_true_eq]
    omega

/-- A visible character that is not of ASCII has such a one in its form. -/
theorem exists_isForeign_lowerForm (hforeign : ¬ IsPlain character) (final : Bool) :
    ∃ lowered ∈ lowerForm final character, IsForeign lowered := by
  rw [IsPlain, not_or, Nat.not_lt, Bool.not_eq_true] at hforeign
  rw [lowerForm]
  split
  next => exact ⟨'i', List.mem_cons_self, by decide, Or.inr (Or.inl rfl)⟩
  next =>
    split
    next => exact ⟨'\u03c2', List.mem_cons_self, by decide, Or.inl (by decide)⟩
    next =>
      refine ⟨_, List.mem_cons_self, ?_⟩
      rw [lowerCharacter]
      split
      next run hrun =>
        have hcovers := List.find?_some hrun
        simp only [CaseRun.covers, Bool.and_eq_true, decide_eq_true_eq] at hcovers
        apply (leadsAbroad_of_mem (List.mem_of_find?_eq_some hrun) (by omega)).isForeign
        omega
      next => exact ⟨hforeign.2, Or.inl hforeign.1⟩

/-! ## Texts -/

theorem lowerCaseBehind_of_isPlain (endsWord : List Char → List Char → Bool)
    (hplain : ∀ character ∈ text, IsPlain character) :
    ∀ before, lowerCaseBehind endsWord before text = text.map Char.toLower := by
  induction text with
  | nil => exact fun before => rfl
  | cons first others ih =>
      intro before
      obtain ⟨hfirst, hothers⟩ := List.forall_mem_cons.mp hplain
      rw [lowerCaseBehind, lowerForm_of_isPlain hfirst, ih hothers]
      rfl

theorem exists_isForeign_lowerCaseBehind (endsWord : List Char → List Char → Bool)
    (hmem : character ∈ text) (hforeign : ¬ IsPlain character) :
    ∀ before, ∃ lowered ∈ lowerCaseBehind endsWord before text, IsForeign lowered := by
  induction text with
  | nil => exact absurd hmem List.not_mem_nil
  | cons first others ih =>
      intro before
      rw [lowerCaseBehind]
      rcases List.mem_cons.mp hmem with rfl | hothers
      · obtain ⟨lowered, hlowered, habroad⟩ :=
          exists_isForeign_lowerForm hforeign (endsWord before others)
        exact ⟨lowered, List.mem_append_left _ hlowered, habroad⟩
      · obtain ⟨lowered, hlowered, habroad⟩ := ih hothers (first :: before)
        exact ⟨lowered, List.mem_append_right _ hlowered, habroad⟩

end Text

namespace Environment

open Text

theorem toList_affirmations : affirmations.map String.toList =
    [['t', 'r', 'u', 'e'], ['1'], ['y', 'e', 's'], ['o', 'n']] := by
  simp only [affirmations, List.map_cons, List.map_nil, String.reduceToList]

theorem not_isForeign_of_mem {word : String} (hword : word ∈ affirmations) {letter : Char}
    (hletter : letter ∈ word.toList) : ¬ IsForeign letter := by
  have hletters := List.mem_map_of_mem (f := String.toList) hword
  rw [toList_affirmations] at hletters
  have hall : ∀ letters ∈ [['t', 'r', 'u', 'e'], ['1'], ['y', 'e', 's'], ['o', 'n']],
      ∀ letter ∈ letters, letter.toNat < 128 ∧ letter ≠ 'i' ∧ letter ≠ 'k' := by
    simp only [List.mem_cons, List.not_mem_nil, or_false, forall_eq_or_imp, forall_eq]
    decide
  obtain ⟨hascii, hi, hk⟩ := hall _ hletters letter hletter
  rintro ⟨-, hforeign | rfl | rfl⟩
  · omega
  · exact hi rfl
  · exact hk rfl

theorem visible_of_mem {word : String} (hword : word ∈ affirmations) :
    word.toList ≠ [] ∧ ∀ letter ∈ word.toList, isBlank letter = false := by
  have hletters := List.mem_map_of_mem (f := String.toList) hword
  rw [toList_affirmations] at hletters
  have hall : ∀ letters ∈ [['t', 'r', 'u', 'e'], ['1'], ['y', 'e', 's'], ['o', 'n']],
      letters ≠ [] ∧ ∀ letter ∈ letters, isBlank letter = false := by
    simp only [List.mem_cons, List.not_mem_nil, or_false, forall_eq_or_imp, forall_eq]
    decide
  exact hall _ hletters

/-- A word that switches a flag on stands among blanks in the lower-case form of a text exactly if
it does so when only the case of Latin letters is changed. -/
theorem padded_lowerCase_iff (endsWord : List Char → List Char → Bool) {word : String}
    (hword : word ∈ affirmations) (text : List Char) :
    Padded word.toList (lowerCase endsWord text) ↔ Padded word.toList (text.map Char.toLower) := by
  by_cases hplain : ∀ character ∈ text, IsPlain character
  · rw [lowerCase, lowerCaseBehind_of_isPlain endsWord hplain]
  · push Not at hplain
    obtain ⟨character, hmem, hforeign⟩ := hplain
    have hnever : ∀ {lowered : List Char} {other : Char}, other ∈ lowered → IsForeign other →
        ¬ Padded word.toList lowered :=
      fun hother habroad hpadded =>
        not_isForeign_of_mem hword (hpadded.mem hother habroad.1) habroad
    obtain ⟨other, hother, habroad⟩ :=
      exists_isForeign_lowerCaseBehind endsWord hmem hforeign []
    rw [IsPlain, not_or, Nat.not_lt, Bool.not_eq_true] at hforeign
    have hkept : character.toLower = character := toLower_eq_self (by omega)
    have hstays : character ∈ text.map Char.toLower :=
      List.mem_map.mpr ⟨character, hmem, hkept⟩
    exact iff_of_false (hnever hother habroad)
      (hnever hstays ⟨hforeign.2, Or.inl hforeign.1⟩)

/-- A text switches a flag on exactly if its lower-case form is one of the words, with or without
blanks around it. -/
theorem isAffirmation_iff (endsWord : List Char → List Char → Bool) (text : String) :
    isAffirmation text = true ↔
      ∃ word ∈ affirmations, Padded word.toList (lowerCase endsWord text.toList) := by
  rw [isAffirmation, List.contains_iff_mem]
  constructor
  · intro hmem
    refine ⟨_, hmem, (padded_lowerCase_iff endsWord hmem text.toList).mpr ?_⟩
    rw [trim, String.toList_ofList, String.toList_map]
    exact padded_trimBlanks _
  · rintro ⟨word, hword, hpadded⟩
    obtain ⟨hne, hletters⟩ := visible_of_mem hword
    rw [padded_lowerCase_iff endsWord hword] at hpadded
    rw [trim, String.toList_map, hpadded.trimBlanks_eq hne hletters, String.ofList_toList]
    exact hword

end Environment

end Collections
