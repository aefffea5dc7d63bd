import LSystem.Proofs.Number.Comparison

/-!
# Zeros and opposites

Turns by nothing and turns in the other direction rest on two laws of doubles. The opposite of the
opposite is the double itself (`neg_neg_eq`), and adding a zero of either sign changes no double but
negative zero (`add_eq_self`). Both hold of the undefined value as well, of which there is only one.
-/
namespace LSystem.Number

open Float.Model UnpackedFloat

/-- Decoding loses nothing. -/
theorem ofModel_pack_decoded (x : Float) :
    Float.ofModel (Float.Model.pack (decoded (isNegative x) (magnitude x))) = x := by
  rw [← unpack_toModel]
  exact ofBits_toBits x

/-- The undefined value has no sign. -/
theorem neg_of_undefined {x : Float} (h : infinite < magnitude x) : -x = x := by
  have hneg : -x = Float.ofModel
      (Float.Model.pack (decoded (isNegative x) (magnitude x)).neg) := by
    rw [← unpack_toModel]
    rfl
  have hsame : (decoded (isNegative x) (magnitude x)).neg = decoded (isNegative x) (magnitude x) := by
    rw [decoded_undefined _ h]
    rfl
  rw [hneg,hsame,ofModel_pack_decoded]

theorem neg_neg_eq (x : Float) : - -x = x := by
  by_cases h : magnitude x ≤ infinite
  · rw [neg_eq (-x),neg_eq x,isNegative_signed h,magnitude_signed h,Bool.not_not,signed_self]
  · have hx := neg_of_undefined (Nat.lt_of_not_le h)
    rw [hx,hx]

theorem magnitude_neg_of_zero {z : Float} (h : magnitude z = 0) : magnitude (-z) = 0 := by
  rw [neg_eq,h]
  exact magnitude_signed (by decide)

theorem magnitude_of_zero {z : Float} (h : z = 0 ∨ z = -0) : magnitude z = 0 := by
  rcases h with rfl | rfl
  · decide
  · decide

/-- Of two zeros the sum is negative only if both are, so it is the first unless that one is. -/
theorem add_decoded_zero {negative : Bool} {p : ℕ} (h : ¬(negative = true ∧ p = 0)) (s : Sign) :
    UnpackedFloat.add Format.binary64 (decoded negative p) (.zero s) = decoded negative p := by
  apply decoded_cases (P := fun u => UnpackedFloat.add Format.binary64 u (.zero s) = u)
  case undefined => exact fun _ => rfl
  case infinity => exact fun _ => rfl
  case zero =>
    intro hp
    obtain rfl : negative = false := by simpa [hp] using h
    cases s <;> rfl
  case finite => exact fun _ _ => rfl

/-- A zero of either sign can be added to every double but negative zero, which it may change. -/
theorem add_eq_self {x z : Float} (hx : x ≠ -0) (hz : magnitude z = 0) : x + z = x := by
  have hsum : x + z = Float.ofModel (Float.Model.pack (UnpackedFloat.add Format.binary64
      (decoded (isNegative x) (magnitude x)) (decoded (isNegative z) (magnitude z)))) := by
    rw [← unpack_toModel,← unpack_toModel]
    rfl
  have hnot : ¬(isNegative x = true ∧ magnitude x = 0) := by
    intro hzero
    have heq := signed_self x
    rw [hzero.1,hzero.2] at heq
    exact hx heq.symm
  rw [hsum,hz,decoded_zero,add_decoded_zero hnot,ofModel_pack_decoded]

example : (-0 : Float) + 0 ≠ -0 := by decide

end LSystem.Number
