import Collections.Literal

/-!
# Elements

The values that the collections are exercised with: 64-bit numbers, texts, and
tagged values.  A tagged value is compared, matched and hashed by its key alone,
so that two of them can be equal and still be told apart by their tags.  Numbers
come before texts and texts before tagged values.
-/

namespace Collections

inductive Element where
  | number (value : Int64)
  | text (value : String)
  | tagged (key tag : Int64)
  deriving Inhabited, Repr, DecidableEq

namespace Element

protected def compare : Element → Element → Ordering
  | .number left, .number right => Ord.compare left right
  | .number _, _ => .lt
  | _, .number _ => .gt
  | .text left, .text right => Ord.compare left right
  | .text _, .tagged _ _ => .lt
  | .tagged _ _, .text _ => .gt
  | .tagged left _, .tagged right _ => Ord.compare left right

instance : Ord Element := ⟨Element.compare⟩

protected def beq : Element → Element → Bool
  | .number left, .number right => left == right
  | .text left, .text right => left == right
  | .tagged left _, .tagged right _ => left == right
  | _, _ => false

instance : BEq Element := ⟨Element.beq⟩

instance : Hashable Element where
  hash
    | .number value => mixHash 1 (hash value)
    | .text value => mixHash 2 (hash value)
    | .tagged key _ => mixHash 3 (hash key)

/-- A number in decimal, a text quoted, a tagged value as key and tag around `#`. -/
instance : Literal Element where
  literal
    | .number value => toString value.toInt
    | .text value => literal value
    | .tagged key tag => toString key.toInt ++ "#" ++ toString tag.toInt

theorem compare_eq_compare (left right : Element) :
    compare left right = Element.compare left right := rfl

theorem beq_eq_beq (left right : Element) : (left == right) = Element.beq left right := rfl

instance : Std.OrientedOrd Element where
  eq_swap {left right} := by
    cases left <;> cases right <;>
      simp only [compare_eq_compare, Element.compare, Ordering.swap_lt, Ordering.swap_gt]
    all_goals exact Std.OrientedOrd.eq_swap

instance : Std.TransOrd Element where
  isLE_trans {first second third} hfirst hsecond := by
    cases first <;> cases second <;> cases third <;>
      simp only [compare_eq_compare, Element.compare, Ordering.isLE_lt, Ordering.isLE_gt,
        Bool.false_eq_true] at *
    all_goals exact Std.TransOrd.isLE_trans hfirst hsecond

/-- Two elements match exactly when neither comes before the other. -/
theorem beq_iff_compare_eq (left right : Element) :
    left == right ↔ compare left right = .eq := by
  cases left <;> cases right <;>
    simp [beq_eq_beq, Element.beq, compare_eq_compare, Element.compare]

instance : EquivBEq Element where
  symm {left right} hmatch := by
    rw [beq_iff_compare_eq] at hmatch ⊢
    exact Std.OrientedCmp.eq_symm hmatch
  trans {first second third} hfirst hsecond := by
    rw [beq_iff_compare_eq] at hfirst hsecond ⊢
    exact Std.TransCmp.eq_trans hfirst hsecond
  rfl {element} := by
    rw [beq_iff_compare_eq]
    exact Std.ReflOrd.compare_self

instance : LawfulHashable Element where
  hash_eq left right hmatch := by
    cases left <;> cases right <;>
      simp_all [beq_eq_beq, Element.beq, hash]

end Element

end Collections
