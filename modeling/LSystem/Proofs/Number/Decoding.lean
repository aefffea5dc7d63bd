import LSystem.Number.Magnitude
import Mathlib.Algebra.Ring.Nat
import Mathlib.Data.Int.Notation

/-!
# Decoding doubles

The bits of a double are decoded as a sign bit and a pattern (`unpack_eq`), and from what is decoded they
are put together again (`pack_unpack_eq`).
-/
namespace LSystem.Number

open Float.Model UnpackedFloat

theorem significand_pos {p : ℕ} (h : p ≠ 0) : 0 < significand p := by
  simp only [significand,scale,Nat.pow_eq]
  omega

/-- The sign of a sign bit. -/
def signOf (negative : Bool) : Sign := if negative then .negative else .positive

/-- Sign, significand and exponent of a double, or which of the other values it is. -/
def decoded (negative : Bool) (p : ℕ) : UnpackedFloat :=
  if p = infinite then .infinity (signOf negative)
  else if infinite < p then .notANumber
  else if h : p = 0 then .zero (signOf negative)
  else .finite (signOf negative) (significand p) (scale p - 1074) (significand_pos h)

section

variable (negative : Bool) {p : ℕ}

theorem decoded_infinite : decoded negative infinite = .infinity (signOf negative) := if_pos rfl

theorem decoded_undefined (h : infinite < p) : decoded negative p = .notANumber := by
  rw [decoded,if_neg (by omega),if_pos h]

theorem decoded_zero : decoded negative 0 = .zero (signOf negative) := rfl

theorem decoded_finite (h : p < infinite) (hp : p ≠ 0) : decoded negative p =
    .finite (signOf negative) (significand p) (scale p - 1074) (significand_pos hp) := by
  rw [decoded,if_neg (by omega),if_neg (by omega),dif_neg hp]

/-- What is decoded is one of four values, by the place of the pattern. -/
theorem decoded_cases (p : ℕ) {P : UnpackedFloat → Prop} (undefined : infinite < p → P .notANumber)
    (infinity : p = infinite → P (.infinity (signOf negative)))
    (zero : p = 0 → P (.zero (signOf negative)))
    (finite : p < infinite → (hp : p ≠ 0) → P (.finite (signOf negative) (significand p)
      (scale p - 1074) (significand_pos hp))) : P (decoded negative p) := by
  rcases Nat.lt_trichotomy p infinite with hlt | heq | hgt
  · by_cases hz : p = 0
    · rw [hz,decoded_zero]
      exact zero hz
    · rw [decoded_finite negative hlt hz]
      exact finite hlt hz
  · rw [heq,decoded_infinite]
    exact infinity heq
  · rw [decoded_undefined negative hgt]
    exact undefined hgt

end

section

variable (b : BitVec 64)

theorem toNat_unpackMantissa :
    (@unpackMantissa Format.binary64 b).toNat = b.toNat % 2 ^ 63 % 2 ^ 52 := by
  change (b.toNat >>> 0) % 2 ^ 52 = _
  rw [Nat.shiftRight_zero]
  omega

theorem toNat_unpackExponent :
    (@unpackExponent Format.binary64 b).toNat = b.toNat % 2 ^ 63 / 2 ^ 52 := by
  change (b.toNat >>> 52) % 2 ^ 11 = _
  rw [Nat.shiftRight_eq_div_pow]
  omega

theorem toNat_unpackSign : (@unpackSign Format.binary64 b).toNat = b.toNat / 2 ^ 63 := by
  have hlt := b.isLt
  change (b.toNat >>> 63) % 2 ^ 1 = _
  rw [Nat.shiftRight_eq_div_pow]
  omega

theorem unpackMantissa_eq_zero_iff :
    @unpackMantissa Format.binary64 b = 0#_ ↔ b.toNat % 2 ^ 63 % 2 ^ 52 = 0 := by
  rw [← BitVec.toNat_inj,toNat_unpackMantissa]
  rfl

theorem unpackExponent_eq_zero_iff :
    @unpackExponent Format.binary64 b = 0#_ ↔ b.toNat % 2 ^ 63 / 2 ^ 52 = 0 := by
  rw [← BitVec.toNat_inj,toNat_unpackExponent]
  rfl

theorem unpackExponent_eq_greatest_iff :
    @unpackExponent Format.binary64 b = -1#_ ↔ b.toNat % 2 ^ 63 / 2 ^ 52 = 2047 := by
  rw [← BitVec.toNat_inj,toNat_unpackExponent]
  rfl

theorem toNat_significand : (1#1 ++ @unpackMantissa Format.binary64 b).toNat =
    2 ^ 52 + b.toNat % 2 ^ 63 % 2 ^ 52 := by
  rw [BitVec.toNat_append,← Nat.shiftLeft_add_eq_or_of_lt (BitVec.isLt _),toNat_unpackMantissa]
  rfl

theorem ofBitVec_unpackSign :
    Sign.ofBitVec (@unpackSign Format.binary64 b) = signOf (2 ^ 63 ≤ b.toNat) := by
  have hlt := b.isLt
  have hzero : @unpackSign Format.binary64 b = 0#1 ↔ ¬2 ^ 63 ≤ b.toNat := by
    rw [← BitVec.toNat_inj,toNat_unpackSign]
    change _ = 0 ↔ _
    omega
  by_cases hb : 2 ^ 63 ≤ b.toNat
  · rw [Sign.ofBitVec,if_neg fun h => hzero.1 h hb,signOf,if_pos (decide_eq_true hb)]
  · rw [Sign.ofBitVec,if_pos (hzero.2 hb),signOf,if_neg (by simpa using hb)]

theorem finite_congr {s t : Sign} {m n : ℕ} {d e : ℤ} {hm : 0 < m} {hn : 0 < n} (hs : s = t)
    (h : m = n) (he : d = e) : UnpackedFloat.finite s m d hm = .finite t n e hn := by
  subst hs h he
  rfl

/-- A magnitude without a leading bit is decoded from an exponent of zero. -/
theorem unpack_of_low (hexp : @unpackExponent Format.binary64 b = 0#_)
    (hman : @unpackMantissa Format.binary64 b ≠ 0#_) :
    UnpackedFloat.unpack Format.binary64 b = decoded (2 ^ 63 ≤ b.toNat) (b.toNat % 2 ^ 63) := by
  have hinfinite : infinite = 2047 * 2 ^ 52 := rfl
  have he := (unpackExponent_eq_zero_iff b).1 hexp
  have hm := mt (unpackMantissa_eq_zero_iff b).2 hman
  have hnot : ¬@unpackExponent Format.binary64 b = -1#_ := by
    rw [hexp]
    decide
  have hsignificand : (@unpackMantissa Format.binary64 b).toNat =
      significand (b.toNat % 2 ^ 63) := by
    rw [toNat_unpackMantissa]
    simp only [significand,scale,Nat.pow_eq]
    omega
  have hscale : ((@unpackExponent Format.binary64 b).toNat : ℤ) - (1023 + 52) + 1 =
      scale (b.toNat % 2 ^ 63) - 1074 := by
    rw [toNat_unpackExponent]
    simp only [scale,Nat.pow_eq]
    omega
  rw [decoded_finite _ (by omega) (by omega)]
  refine (if_neg hnot).trans ((if_pos hexp).trans ((dif_neg hman).trans ?_))
  exact finite_congr (ofBitVec_unpackSign b) hsignificand hscale

/-- A magnitude with a leading bit is decoded from an exponent that is neither zero nor the greatest. -/
theorem unpack_of_lead (hexp : ¬@unpackExponent Format.binary64 b = -1#_)
    (hlow : ¬@unpackExponent Format.binary64 b = 0#_) :
    UnpackedFloat.unpack Format.binary64 b = decoded (2 ^ 63 ≤ b.toNat) (b.toNat % 2 ^ 63) := by
  have hinfinite : infinite = 2047 * 2 ^ 52 := rfl
  have hlt : b.toNat % 2 ^ 63 < 2 ^ 63 := Nat.mod_lt _ (by decide)
  have he := mt (unpackExponent_eq_zero_iff b).2 hlow
  have hfinite := mt (unpackExponent_eq_greatest_iff b).2 hexp
  have hsignificand : (1#1 ++ @unpackMantissa Format.binary64 b).toNat =
      significand (b.toNat % 2 ^ 63) := by
    rw [toNat_significand]
    simp only [significand,scale,Nat.pow_eq]
    omega
  have hscale : ((@unpackExponent Format.binary64 b).toNat : ℤ) - (1023 + 52) =
      scale (b.toNat % 2 ^ 63) - 1074 := by
    rw [toNat_unpackExponent]
    simp only [scale,Nat.pow_eq]
    omega
  rw [decoded_finite _ (by omega) (by omega)]
  refine (if_neg hexp).trans ((if_neg hlow).trans ?_)
  exact finite_congr (ofBitVec_unpackSign b) hsignificand hscale

/-- Bits are decoded as their sign bit and the pattern below it. -/
theorem unpack_eq :
    UnpackedFloat.unpack Format.binary64 b = decoded (2 ^ 63 ≤ b.toNat) (b.toNat % 2 ^ 63) := by
  have hinfinite : infinite = 2047 * 2 ^ 52 := rfl
  have hsign := ofBitVec_unpackSign b
  by_cases hexp : @unpackExponent Format.binary64 b = -1#_
  · have he := (unpackExponent_eq_greatest_iff b).1 hexp
    refine (if_pos hexp).trans ?_
    by_cases hman : @unpackMantissa Format.binary64 b = 0#_
    · have hm := (unpackMantissa_eq_zero_iff b).1 hman
      rw [show b.toNat % 2 ^ 63 = infinite by omega,decoded_infinite]
      exact (if_pos hman).trans (congrArg UnpackedFloat.infinity hsign)
    · have hm := mt (unpackMantissa_eq_zero_iff b).2 hman
      rw [decoded_undefined _ (show infinite < b.toNat % 2 ^ 63 by omega)]
      exact if_neg hman
  · by_cases hlow : @unpackExponent Format.binary64 b = 0#_
    · by_cases hman : @unpackMantissa Format.binary64 b = 0#_
      · have he := (unpackExponent_eq_zero_iff b).1 hlow
        have hm := (unpackMantissa_eq_zero_iff b).1 hman
        rw [show b.toNat % 2 ^ 63 = 0 by omega,decoded_zero]
        refine (if_neg hexp).trans ((if_pos hlow).trans ((dif_pos hman).trans ?_))
        exact congrArg UnpackedFloat.zero hsign
      · exact unpack_of_low b hlow hman
    · exact unpack_of_lead b hexp hlow

end

variable {negative : Bool} {p : ℕ}

theorem toNat_packComponents (e : BitVec 11) (m : BitVec 52) :
    (packComponents Format.binary64 (signOf negative) e m).toNat =
      (if negative then 2 ^ 63 else 0) + (e.toNat * 2 ^ 52 + m.toNat) := by
  have he := e.isLt
  have hm := m.isLt
  have hsign : (signOf negative).toBitVec.toNat = if negative then 1 else 0 := by
    cases negative <;> rfl
  unfold packComponents
  rw [BitVec.toNat_append,BitVec.toNat_append,hsign,← Nat.shiftLeft_add_eq_or_of_lt hm,
    ← Nat.shiftLeft_add_eq_or_of_lt he,Nat.shiftLeft_eq,Nat.shiftLeft_eq]
  change ((if negative then 1 else 0) * 2 ^ 11 + e.toNat) * 2 ^ 52 + m.toNat = _
  split <;> omega

/-- A finite value is packed into its pattern, from a significand with its leading bit or without one. -/
theorem toNat_pack_finite (h : p < infinite) (hp : 0 < significand p) :
    (UnpackedFloat.pack Format.binary64
      (.finite (signOf negative) (significand p) (scale p - 1074) hp)).toNat =
        (if negative then 2 ^ 63 else 0) + p := by
  have hinfinite : infinite = 2047 * 2 ^ 52 := rfl
  have hne := Nat.pos_iff_ne_zero.1 hp
  have hexponent : ((scale p : ℤ) - 1074 + 1023 + 52).toNat = scale p + 1 := by omega
  have hscale : ¬2 ^ 11 ≤ scale p + 1 + 1 := by
    simp only [scale,Nat.pow_eq]
    omega
  change BitVec.toNat (if 2 ^ 11 ≤ ((scale p : ℤ) - 1074 + 1023 + 52).toNat + 1 then
      packedInfinity Format.binary64 (signOf negative)
    else if (significand p).log2 + 1 = 53 then
      packComponents Format.binary64 (signOf negative)
        (BitVec.ofNat 11 ((scale p : ℤ) - 1074 + 1023 + 52).toNat) (BitVec.ofNat 52 (significand p))
    else packComponents Format.binary64 (signOf negative) 0#11 (BitVec.ofNat 52 (significand p))) = _
  rw [hexponent,if_neg hscale]
  by_cases hlead : 2 ^ 52 ≤ significand p
  · have hlog : (significand p).log2 + 1 = 53 := by
      rw [Nat.add_right_cancel_iff,Nat.log2_eq_iff hne]
      simp only [significand,scale,Nat.pow_eq] at *
      omega
    rw [if_pos hlog,toNat_packComponents,BitVec.toNat_ofNat,BitVec.toNat_ofNat]
    simp only [significand,scale,Nat.pow_eq] at *
    omega
  · have hlog : ¬(significand p).log2 + 1 = 53 := by
      have hlt := (Nat.log2_lt hne).2 (Nat.lt_of_not_le hlead)
      omega
    rw [if_neg hlog,toNat_packComponents,BitVec.toNat_ofNat,BitVec.toNat_ofNat]
    simp only [significand,scale,Nat.pow_eq] at *
    omega

/-- What is decoded from a sign bit and a pattern is packed into them. -/
theorem toNat_pack_decoded (h : p ≤ infinite) :
    (UnpackedFloat.pack Format.binary64 (decoded negative p)).toNat =
      (if negative then 2 ^ 63 else 0) + p := by
  rcases Nat.lt_or_eq_of_le h with hlt | rfl
  · by_cases hz : p = 0
    · rw [hz,decoded_zero]
      exact toNat_packComponents 0#11 0#52
    · rw [decoded_finite _ hlt hz]
      exact toNat_pack_finite hlt _
  · rw [decoded_infinite]
    exact toNat_packComponents (-1#11) 0#52

/-- There is one form of the undefined value. -/
theorem eq_packedNaN {b : BitVec 64} (h : Format.binary64.Valid b) (hb : infinite < b.toNat % 2 ^ 63) :
    b = packedNaN Format.binary64 := by
  have hlt := b.isLt
  have hinfinite : infinite = 2047 * 2 ^ 52 := rfl
  have hexp := (unpackExponent_eq_greatest_iff b).2 (by omega)
  have hman := mt (unpackMantissa_eq_zero_iff b).1 (by omega)
  exact h.eq_packedNaN hexp hman

/-- Bits are what is put together from what they are decoded to. -/
theorem pack_unpack_eq {b : BitVec 64} (h : Format.binary64.Valid b) :
    UnpackedFloat.pack Format.binary64 (UnpackedFloat.unpack Format.binary64 b) = b := by
  have hlt := b.isLt
  by_cases hb : b.toNat % 2 ^ 63 ≤ infinite
  · apply BitVec.eq_of_toNat_eq
    rw [unpack_eq,toNat_pack_decoded hb]
    simp only [decide_eq_true_eq]
    split <;> omega
  · rw [eq_packedNaN h (Nat.lt_of_not_le hb)]
    rfl

/-- Up to infinity bits are of no undefined value. -/
theorem valid_of_le_infinite {b : BitVec 64} (h : b.toNat % 2 ^ 63 ≤ infinite) :
    Format.binary64.Valid b where
  eq_packedNaN hexp hman := by
    have hinfinite : infinite = 2047 * 2 ^ 52 := rfl
    have he := (unpackExponent_eq_greatest_iff b).1 hexp
    have hm := mt (unpackMantissa_eq_zero_iff b).2 hman
    omega

end LSystem.Number
