import LSystem.Proofs.Number.Doubles
import LSystem.Proofs.Number.Rounding

/-!
# Order and sign of doubles

A double compares as its sign bit and its pattern do: patterns are in the order of scale and
significand, and a sign bit reflects them at zero (`le_iff`). The opposite of a double has the other
sign bit and the same pattern (`neg_eq`).
-/
namespace LSystem.Number

open Float.Model UnpackedFloat

theorem unpack_toModel (x : Float) :
    x.toModel.unpack = decoded (isNegative x) (magnitude x) := unpack_eq x.toBits.toBitVec

theorem isNaN_iff {x : Float} : x.isNaN = true ↔ infinite < magnitude x := by
  change x.toModel.unpack.isNaN = true ↔ _
  have hpos : 0 < infinite := by decide
  rw [unpack_toModel]
  apply decoded_cases (P := fun u => u.isNaN = true ↔ infinite < magnitude x)
  case undefined => exact fun h => iff_of_true rfl h
  case infinity => exact fun h => iff_of_false Bool.false_ne_true (by omega)
  case zero => exact fun h => iff_of_false Bool.false_ne_true (by omega)
  case finite => exact fun h _ => iff_of_false Bool.false_ne_true (by omega)

/-- Defined doubles are those up to infinity. -/
theorem isNaN_eq_false_iff {x : Float} : x.isNaN = false ↔ magnitude x ≤ infinite := by
  rw [← Bool.not_eq_true,isNaN_iff,Nat.not_lt]

theorem isInf_iff {x : Float} : x.isInf = true ↔ magnitude x = infinite := by
  change x.toModel.unpack.isInf = true ↔ _
  have hpos : 0 < infinite := by decide
  rw [unpack_toModel]
  apply decoded_cases (P := fun u => u.isInf = true ↔ magnitude x = infinite)
  case undefined => exact fun h => iff_of_false Bool.false_ne_true (by omega)
  case infinity => exact fun h => iff_of_true rfl h
  case zero => exact fun h => iff_of_false Bool.false_ne_true (by omega)
  case finite => exact fun h _ => iff_of_false Bool.false_ne_true (by omega)

theorem isFinite_iff {x : Float} : x.isFinite = true ↔ magnitude x < infinite := by
  change x.toModel.unpack.isFinite = true ↔ _
  have hpos : 0 < infinite := by decide
  rw [unpack_toModel]
  apply decoded_cases (P := fun u => u.isFinite = true ↔ magnitude x < infinite)
  case undefined => exact fun h => iff_of_false Bool.false_ne_true (by omega)
  case infinity => exact fun h => iff_of_false Bool.false_ne_true (by omega)
  case zero => exact fun h => iff_of_true rfl (by omega)
  case finite => exact fun h _ => iff_of_true rfl h

/-- Patterns are in the order of their scales and, on one scale, of their significands. -/
theorem compare_pattern (p q : ℕ) :
    (compare ((scale p : ℤ) - 1074) ((scale q : ℤ) - 1074)).then
      (compare (significand p) (significand q)) = compare p q := by
  have hp := pattern_eq p
  have hq := pattern_eq q
  have hlp := significand_lt p
  have hlq := significand_lt q
  have hnp := normal p
  have hnq := normal q
  rcases Nat.lt_trichotomy (scale p) (scale q) with h | h | h
  · rw [compare_lt_iff_lt.2 (show (scale p : ℤ) - 1074 < (scale q : ℤ) - 1074 by omega),
      compare_lt_iff_lt.2 (show p < q by omega)]
    rfl
  · rw [h,compare_eq_iff_eq.2 rfl,Ordering.then]
    rcases Nat.lt_trichotomy p q with hlt | heq | hgt
    · rw [compare_lt_iff_lt.2 hlt,compare_lt_iff_lt.2 (show significand p < significand q by omega)]
    · rw [compare_eq_iff_eq.2 heq,compare_eq_iff_eq.2 (show significand p = significand q by omega)]
    · rw [compare_gt_iff_gt.2 hgt,compare_gt_iff_gt.2 (show significand q < significand p by omega)]
  · rw [compare_gt_iff_gt.2 (show (scale q : ℤ) - 1074 < (scale p : ℤ) - 1074 by omega),
      compare_gt_iff_gt.2 (show q < p by omega)]
    rfl

/-- A sign bit and a pattern as a rank in the order of doubles. Both zeros have the same. -/
def rank (negative : Bool) (p : ℕ) : ℤ := if negative then -p else p

section

variable {m n : Bool} {p q : ℕ}

theorem le_finite_iff (hp : p ≠ 0) (hq : q ≠ 0) :
    (UnpackedFloat.finite (signOf m) (significand p) (scale p - 1074) (significand_pos hp)).le
      (.finite (signOf n) (significand q) (scale q - 1074) (significand_pos hq)) = true ↔
        rank m p ≤ rank n q := by
  cases m with
  | false =>
    cases n with
    | false =>
      change ((compare ((scale p : ℤ) - 1074) (scale q - 1074)).then
        (compare (significand p) (significand q))).isLE = true ↔ (p : ℤ) ≤ q
      rw [compare_pattern,Nat.isLE_compare,Int.ofNat_le]
    | true => exact iff_of_false Bool.false_ne_true (show ¬(p : ℤ) ≤ -q by omega)
  | true =>
    cases n with
    | false => exact iff_of_true rfl (show -(p : ℤ) ≤ q by omega)
    | true =>
      change ((compare ((scale p : ℤ) - 1074) (scale q - 1074)).then
        (compare (significand p) (significand q))).swap.isLE = true ↔ -(p : ℤ) ≤ -q
      rw [compare_pattern,Nat.compare_swap,Nat.isLE_compare,Int.neg_le_neg_iff,Int.ofNat_le]

theorem rank_zero (negative : Bool) : rank negative 0 = 0 := by cases negative <;> rfl

/-- Finite doubles rank between the infinities. -/
theorem rank_lt_infinite (h : q < infinite) : rank n q < infinite ∧ -infinite < rank n q := by
  cases n with
  | false => exact ⟨show (q : ℤ) < infinite by omega,show -(infinite : ℤ) < q by omega⟩
  | true => exact ⟨show -(q : ℤ) < infinite by omega,show -(infinite : ℤ) < -q by omega⟩

/-- Defined doubles compare as their ranks do. -/
theorem le_decoded_iff (hp : p ≤ infinite) (hq : q ≤ infinite) :
    (decoded m p).le (decoded n q) = true ↔ rank m p ≤ rank n q := by
  have hclass {r : ℕ} (hr : r ≤ infinite) : r = infinite ∨ r = 0 ∨ r < infinite ∧ r ≠ 0 := by
    omega
  rcases hclass hp with rfl | rfl | ⟨hpf,hp0⟩
  · rw [decoded_infinite]
    rcases hclass hq with rfl | rfl | ⟨hqf,hq0⟩
    · cases m <;> cases n <;> decide
    · cases m <;> cases n <;> decide
    · obtain ⟨hlt,hgt⟩ := rank_lt_infinite (n := n) hqf
      rw [decoded_finite n hqf hq0]
      cases m with
      | false => exact iff_of_false Bool.false_ne_true (Int.not_le.2 hlt)
      | true => exact iff_of_true rfl hgt.le
  · rw [decoded_zero,rank_zero]
    rcases hclass hq with rfl | rfl | ⟨hqf,hq0⟩
    · cases m <;> cases n <;> decide
    · cases m <;> cases n <;> decide
    · rw [decoded_finite n hqf hq0]
      cases n with
      | false => exact iff_of_true rfl (show (0 : ℤ) ≤ q by omega)
      | true => exact iff_of_false Bool.false_ne_true (show ¬(0 : ℤ) ≤ -q by omega)
  · rw [decoded_finite m hpf hp0]
    rcases hclass hq with rfl | rfl | ⟨hqf,hq0⟩
    · obtain ⟨hlt,hgt⟩ := rank_lt_infinite (n := m) hpf
      rw [decoded_infinite]
      cases n with
      | false => exact iff_of_true rfl hlt.le
      | true => exact iff_of_false Bool.false_ne_true (Int.not_le.2 hgt)
    · rw [decoded_zero,rank_zero]
      cases m with
      | false => exact iff_of_false Bool.false_ne_true (show ¬(p : ℤ) ≤ 0 by omega)
      | true => exact iff_of_true rfl (show -(p : ℤ) ≤ 0 by omega)
    · rw [decoded_finite n hqf hq0]
      exact le_finite_iff hp0 hq0

end

/-- No comparison holds of the undefined value, and other doubles are in the order of their ranks. -/
theorem le_iff {x y : Float} : x ≤ y ↔ magnitude x ≤ infinite ∧ magnitude y ≤ infinite ∧
    rank (isNegative x) (magnitude x) ≤ rank (isNegative y) (magnitude y) := by
  have hle : x ≤ y ↔ (decoded (isNegative x) (magnitude x)).le
      (decoded (isNegative y) (magnitude y)) = true := by
    rw [← unpack_toModel,← unpack_toModel]
    exact decide_eq_true_iff
  rw [hle]
  by_cases hx : magnitude x ≤ infinite
  · by_cases hy : magnitude y ≤ infinite
    · rw [le_decoded_iff hx hy]
      exact ⟨fun h => ⟨hx,hy,h⟩,fun h => h.2.2⟩
    · rw [decoded_undefined (isNegative y) (Nat.lt_of_not_le hy),UnpackedFloat.le,
        show UnpackedFloat.compare _ .notANumber = none by cases decoded _ _ <;> rfl]
      exact ⟨fun h => absurd h (by decide),fun h => absurd h.2.1 hy⟩
  · rw [decoded_undefined (isNegative x) (Nat.lt_of_not_le hx)]
    exact ⟨fun h => absurd h Bool.false_ne_true,fun h => absurd h.1 hx⟩

theorem swap_then_compare (e f : ℤ) (m n : ℕ) :
    ((compare e f).then (compare m n)).swap = (compare f e).then (compare n m) := by
  rw [Ordering.swap_then,Int.compare_swap,Nat.compare_swap]

theorem swap_compare (a b : UnpackedFloat) : (a.compare b).map Ordering.swap = b.compare a := by
  cases a with
  | notANumber => cases b <;> rfl
  | infinity s =>
    cases b with
    | infinity t => cases s <;> cases t <;> rfl
    | _ => cases s <;> rfl
  | zero s =>
    cases b with
    | infinity t | finite t => cases t <;> rfl
    | _ => rfl
  | finite s m e =>
    cases b with
    | finite t n f =>
      have hswap := swap_then_compare e f m n
      cases s <;> cases t
      · exact congrArg (fun o => some o.swap) hswap
      · rfl
      · rfl
      · exact congrArg some hswap
    | infinity t => cases t <;> rfl
    | zero => cases s <;> rfl
    | notANumber => rfl

theorem lt_iff_le_and_not_ge (x y : Float) : x < y ↔ x ≤ y ∧ ¬y ≤ x := by
  have hlt : x < y ↔ x.toModel.unpack.lt y.toModel.unpack = true := decide_eq_true_iff
  have hle (x y : Float) : x ≤ y ↔ x.toModel.unpack.le y.toModel.unpack = true :=
    decide_eq_true_iff
  rw [hlt,hle,hle,UnpackedFloat.lt,UnpackedFloat.le,UnpackedFloat.le,
    ← swap_compare x.toModel.unpack]
  cases x.toModel.unpack.compare y.toModel.unpack with
  | none => simp
  | some o => cases o <;> decide

theorem lt_iff {x y : Float} : x < y ↔ magnitude x ≤ infinite ∧ magnitude y ≤ infinite ∧
    rank (isNegative x) (magnitude x) < rank (isNegative y) (magnitude y) := by
  have hle : x ≤ y ↔ _ := le_iff
  have hge : y ≤ x ↔ _ := le_iff
  rw [lt_iff_le_and_not_ge,hle,hge]
  omega

theorem neg_decoded (negative : Bool) (p : ℕ) : (decoded negative p).neg = decoded (!negative) p := by
  have hsign : -signOf negative = signOf !negative := by cases negative <;> rfl
  apply decoded_cases (P := fun u => u.neg = decoded (!negative) p)
  case undefined => exact fun h => (decoded_undefined _ h).symm
  case infinity =>
    intro h
    rw [h,decoded_infinite]
    exact congrArg UnpackedFloat.infinity hsign
  case zero =>
    intro h
    rw [h,decoded_zero]
    exact congrArg UnpackedFloat.zero hsign
  case finite =>
    intro h hp
    rw [decoded_finite _ h hp]
    exact finite_congr hsign rfl rfl

/-- The opposite of a double has the other sign bit and the same pattern. -/
theorem neg_eq (x : Float) : -x = signed (!isNegative x) (magnitude x) := by
  have hp : magnitude x < 2 ^ 63 := Nat.mod_lt _ (by decide)
  have hbits : (UInt64.ofNat (if !isNegative x then Nat.pow 2 63 + magnitude x
      else magnitude x)).toBitVec.toNat =
        if !isNegative x then 2 ^ 63 + magnitude x else magnitude x := by
    change (UInt64.ofNat _).toNat = _
    rw [UInt64.toNat_ofNat',Nat.mod_eq_of_lt (by simp only [Nat.pow_eq]; split <;> omega)]
    rfl
  have hunpack : UnpackedFloat.unpack Format.binary64 (UInt64.ofNat
      (if !isNegative x then Nat.pow 2 63 + magnitude x else magnitude x)).toBitVec =
        x.toModel.unpack.neg := by
    rw [unpack_eq,hbits,unpack_toModel,neg_decoded]
    congr 1
    · cases isNegative x <;> simp
      omega
    · split <;> omega
  exact congrArg (fun u => Float.ofModel (Float.Model.pack u)) hunpack.symm

end LSystem.Number
