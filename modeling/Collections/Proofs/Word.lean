import Mathlib
import Collections.Word

/-!
# Products of words

A product of two words is refused exactly when it is no word itself, so a product
that is returned is the product of the numbers.
-/

namespace Collections.Word

theorem toNat_mul_of_div_eq {left right : UInt64}
    (hback : left * right / left = right) :
    (left * right).toNat = left.toNat * right.toNat := by
  have hwrapped : (left * right).toNat ≤ left.toNat * right.toNat := by
    rw [UInt64.toNat_mul]
    exact Nat.mod_le _ _
  have hquotient : (left * right).toNat / left.toNat = right.toNat := by
    rw [← UInt64.toNat_div, hback]
  have hreached : left.toNat * right.toNat ≤ (left * right).toNat := by
    rw [← hquotient]
    exact Nat.mul_div_le _ _
  exact Nat.le_antisymm hwrapped hreached

theorem checkedMul_eq_some_iff {left right product : UInt64} :
    checkedMul left right = some product ↔
      product.toNat = left.toNat * right.toNat := by
  constructor
  · intro hproduct
    simp only [checkedMul, Option.ite_none_right_eq_some, Option.some.injEq] at hproduct
    obtain ⟨hzero | hback, rfl⟩ := hproduct
    · simp [hzero]
    · exact toNat_mul_of_div_eq hback
  · intro hproduct
    have hfits : left.toNat * right.toNat < 2 ^ 64 := hproduct ▸ UInt64.toNat_lt product
    have heq : left * right = product := by
      apply UInt64.toNat_inj.mp
      rw [UInt64.toNat_mul, hproduct, Nat.mod_eq_of_lt hfits]
    simp only [checkedMul, heq, Option.ite_none_right_eq_some, and_true]
    by_cases hleft : left = 0
    · exact Or.inl hleft
    · right
      have hpositive : 0 < left.toNat := by
        apply Nat.pos_of_ne_zero
        intro hzero
        exact hleft (UInt64.toNat_inj.mp hzero)
      apply UInt64.toNat_inj.mp
      rw [UInt64.toNat_div, hproduct, Nat.mul_div_cancel_left _ hpositive]

theorem checkedMul_eq_none_iff {left right : UInt64} :
    checkedMul left right = none ↔ 2 ^ 64 ≤ left.toNat * right.toNat := by
  rw [Option.eq_none_iff_forall_ne_some]
  simp only [ne_eq, checkedMul_eq_some_iff]
  constructor
  · intro hnone
    by_contra hsmall
    have hfits : left.toNat * right.toNat < 2 ^ 64 := Nat.lt_of_not_le hsmall
    exact hnone (.ofNat (left.toNat * right.toNat)) (UInt64.toNat_ofNat_of_lt' hfits)
  · intro hlarge product hproduct
    exact absurd (hproduct ▸ UInt64.toNat_lt product) (Nat.not_lt_of_le hlarge)

/-- A number as a word, or the greatest word if it is none. -/
def saturating (number : Nat) : UInt64 :=
  .ofNat (min number greatest.toNat)

theorem saturating_toNat (word : UInt64) : saturating word.toNat = word := by
  have hfits : word.toNat ≤ greatest.toNat := Nat.le_sub_one_of_lt (UInt64.toNat_lt word)
  rw [saturating, Nat.min_eq_left hfits, UInt64.ofNat_toNat]

theorem saturating_of_le {number : Nat} (hlarge : 2 ^ 64 ≤ number) :
    saturating number = greatest := by
  have hgreatest : greatest.toNat ≤ number := Nat.le_trans (Nat.le_of_lt (by decide)) hlarge
  rw [saturating, Nat.min_eq_right hgreatest, UInt64.ofNat_toNat]

theorem toNat_saturating {number : Nat} (hfits : number < 2 ^ 64) :
    (saturating number).toNat = number := by
  have hgreatest : number ≤ greatest.toNat := Nat.le_sub_one_of_lt hfits
  rw [saturating, Nat.min_eq_left hgreatest, UInt64.toNat_ofNat_of_lt' hfits]

theorem saturating_eq_zero_iff {number : Nat} : saturating number = 0 ↔ number = 0 := by
  have hfits : min number greatest.toNat < 2 ^ 64 :=
    Nat.lt_of_le_of_lt (Nat.min_le_right _ _) (by decide)
  have hpositive : 0 < greatest.toNat := by decide
  rw [← UInt64.toNat_inj, saturating, UInt64.toNat_ofNat_of_lt' hfits, UInt64.toNat_zero]
  omega

theorem saturatingMul_eq (left right : UInt64) :
    saturatingMul left right = saturating (left.toNat * right.toNat) := by
  rw [saturatingMul]
  cases hproduct : checkedMul left right with
  | some product =>
      rw [← checkedMul_eq_some_iff.mp hproduct, saturating_toNat]
      rfl
  | none =>
      rw [saturating_of_le (checkedMul_eq_none_iff.mp hproduct)]
      rfl

theorem le_largestObject_iff {word : UInt64} : word ≤ largestObject ↔ word.toNat < 2 ^ 63 := by
  rw [UInt64.le_iff_toNat_le, show largestObject.toNat = 2 ^ 63 - 1 from rfl]
  omega

/-- A product is the size of an object if it is one as a number. -/
theorem checkedMul_any_le_iff {left right : UInt64} :
    (checkedMul left right).any (· ≤ largestObject) = true ↔
      left.toNat * right.toNat < 2 ^ 63 := by
  cases hproduct : checkedMul left right with
  | some product =>
      rw [← checkedMul_eq_some_iff.mp hproduct, Option.any_some, decide_eq_true_eq,
        le_largestObject_iff]
  | none =>
      have hlarge := checkedMul_eq_none_iff.mp hproduct
      rw [Option.any_none]
      exact iff_of_false Bool.false_ne_true (by omega)

end Collections.Word
