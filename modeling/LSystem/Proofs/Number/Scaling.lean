import LSystem.Number.Scaling
import LSystem.Proofs.Number.Errors

/-!
# Evaluated decimals

A decimal is evaluated in at most four steps, and each of them rounds. So it evaluates to a pattern
that is at most four away from the one to which it rounds (`toPattern_dist`), and to just this one
where its coefficient and the power of ten are doubles themselves (`toPattern_eq`).
-/
namespace LSystem.Number

/-- The greatest power of ten that is finite. -/
def tenMax : ℕ := Nat.pow 10 greatestPower

/-- Where it stands among the coefficients, the patterns that are dense and the finite patterns. -/
theorem tenMax_bounds :
    2 ^ 64 ≤ tenMax ∧
    (quanta (2 ^ 52) + quanta (2 ^ 52 + 1)) * tenMax < 5 * unit ∧
    tenMax * unit < quanta (infinite - 1) ∧
    quanta infinite < 10 * tenMax * unit ∧
    2 * 2 ^ 64 * unit < Nat.pow 10 343 := by
  decide +kernel

theorem le_tenMax {c : ℕ} (hc : c < 2 ^ 64) : c ≤ tenMax := hc.le.trans tenMax_bounds.1

theorem tenMax_pos : (1 : ℚ) ≤ tenMax := Nat.one_le_cast.2 (le_tenMax (by decide))

theorem tenMax_lt_value : tenMax < value (infinite - 1) := by
  rw [← ofQuanta_mul_unit]
  exact ofQuanta_strictMono tenMax_bounds.2.2.1

theorem value_infinite_lt : value infinite < (10 * tenMax : ℕ) := by
  rw [← ofQuanta_mul_unit]
  exact ofQuanta_strictMono tenMax_bounds.2.2.2.1

theorem mul_tenMax_lt : (value (2 ^ 52) + value (2 ^ 52 + 1)) * tenMax < 5 := by
  have h := ofQuanta_strictMono tenMax_bounds.2.1
  rw [Nat.mul_comm,ofQuanta_mul,ofQuanta_add,ofQuanta_mul_unit,mul_comm] at h
  exact h

section

variable {num den : ℕ} (hd : 0 < den)

include hd

theorem nearest_lt_infinite (h : (num / den : ℚ) ≤ tenMax) : nearest num den < infinite := by
  have hmax := tenMax_lt_value
  have hup := value_strictMono (Nat.lt_succ_self (infinite - 1))
  have hle : nearest num den ≤ infinite - 1 := by
    apply nearest_le hd
    generalize (num / den : ℚ) = x at h
    linarith
  have hpos : 0 < infinite := by decide
  omega

theorem lt_nearest (h : 5 ≤ 2 * (num / den : ℚ) * tenMax) : 2 ^ 52 < nearest num den := by
  have hlow := mul_tenMax_lt
  refine Nat.lt_of_succ_le (le_nearest hd ?_ (by decide))
  rw [Nat.succ_sub_one]
  exact lt_of_mul_lt_mul_right (hlow.trans_le h) (by linarith [tenMax_pos])

theorem near_nearest (hlow : 5 ≤ 2 * (num / den : ℚ) * tenMax)
    (hhigh : (num / den : ℚ) ≤ tenMax) : Near 1 (num / den) (value (nearest num den)) :=
  (roundsTo_nearest hd (nearest_lt_infinite hd hhigh)).near (lt_nearest hd hlow)

end

theorem five_le_tenMax : (5 : ℚ) ≤ 2 * tenMax := by
  have h : 5 ≤ tenMax := le_tenMax (by decide)
  have hrat : (5 : ℚ) ≤ tenMax := by exact_mod_cast h
  linarith

theorem mul_tenMax_le {n : ℕ} (h : ¬n ≤ greatestPower) : 10 * tenMax ≤ Nat.pow 10 n := by
  unfold tenMax
  generalize greatestPower = m at h ⊢
  calc 10 * Nat.pow 10 m = Nat.pow 10 (m + 1) := Nat.pow_succ'.symm
    _ ≤ Nat.pow 10 n := Nat.pow_le_pow_right (by decide) (Nat.lt_of_not_le h)

theorem near_ofWhole {n : ℕ} (hpos : 0 < n) (hle : n ≤ tenMax) : Near 1 n (value (ofWhole n)) := by
  have hone : (1 : ℚ) ≤ n := by exact_mod_cast hpos
  have hmax : (n : ℚ) ≤ tenMax := by exact_mod_cast hle
  have hlarge := five_le_tenMax
  have h := @near_nearest n 1 Nat.one_pos
  rw [Nat.cast_one,div_one] at h
  exact h (by nlinarith) hmax

theorem near_powerOfTen {n : ℕ} (h : n ≤ greatestPower) :
    Near 1 (10 ^ n) (value (powerOfTen n)) := by
  have hle : Nat.pow 10 n ≤ tenMax := by
    unfold tenMax
    generalize greatestPower = m at h ⊢
    exact Nat.pow_le_pow_right (by decide) h
  have hnear := near_ofWhole (ten_pow_pos n) hle
  rwa [Nat.pow_eq,Nat.cast_pow,Nat.cast_ofNat] at hnear

theorem cast_tenMax : (tenMax : ℚ) = 10 ^ greatestPower := by
  unfold tenMax
  generalize greatestPower = m
  exact Nat.cast_pow 10 m

theorem square_unit : Nat.pow 2 2148 = unit * unit := by
  unfold unit
  generalize hm : 2148 = m
  generalize hn : 1074 = n
  rw [show m = n + n by omega]
  exact Nat.pow_add 2 n n

theorem square_unit_pos : 0 < Nat.pow 2 2148 := by
  generalize 2148 = n
  exact Nat.two_pow_pos n

theorem product_eq (p q : ℕ) :
    ((quanta p * quanta q : ℕ) / Nat.pow 2 2148 : ℚ) = value p * value q := by
  rw [square_unit,Nat.cast_mul,Nat.cast_mul,value,value,ofQuanta,ofQuanta,div_mul_div_comm]

theorem quotient_eq (p q : ℕ) : (quanta p / quanta q : ℚ) = value p / value q := by
  rw [value,value,ofQuanta,ofQuanta,div_div_div_cancel_right₀ unit_pos.ne']

theorem quanta_pos_of_value {p : ℕ} (h : 0 < value p) : 0 < quanta p := by
  rw [value,ofQuanta] at h
  exact Nat.cast_pos.1 ((div_pos_iff_of_pos_right unit_pos).1 h)

/-- Where the exact product rounds to a pattern it is the product. -/
theorem product_eq_of_roundsTo {p q r : ℕ} (h : RoundsTo p (value q * value r))
    (hp : p ≤ infinite) : product q r = p := by
  rw [← product_eq] at h
  exact nearest_eq square_unit_pos h hp

theorem quotient_eq_of_roundsTo {p q r : ℕ} (h : RoundsTo p (value q / value r))
    (hr : 0 < value r) (hp : p ≤ infinite) : quotient q r = p := by
  rw [← quotient_eq] at h
  exact nearest_eq (quanta_pos_of_value hr) h hp

section

variable {p q r i j : ℕ} {x y : ℚ} (hx : 0 < x) (hy : 0 < y) (hq : Near i x (value q))
  (hr : Near j y (value r))

include hx hy hq hr

theorem dist_product (h : RoundsTo p (x * y)) (hp : p ≤ infinite) :
    Nat.dist p (product q r) ≤ i + j := by
  have hnear := hq.mul hr hx hy
  rw [← product_eq] at hnear
  exact hnear.dist_nearest_le h square_unit_pos hp

theorem dist_quotient (h : RoundsTo p (x / y)) (hp : p ≤ infinite) :
    Nat.dist p (quotient q r) ≤ i + j := by
  have hnear := hq.div hr hx hy
  rw [← quotient_eq] at hnear
  exact hnear.dist_nearest_le h (quanta_pos_of_value (hr.pos hy.le)) hp

/-- A quotient in the dense range is one more rounding away. -/
theorem near_quotient (hlow : 5 ≤ 2 * (value q / value r) * tenMax)
    (hhigh : value q / value r ≤ tenMax) : Near (i + j + 1) (x / y) (value (quotient q r)) := by
  have hnear := hq.div hr hx hy
  rw [← quotient_eq] at hlow hhigh hnear
  exact hnear.trans (near_nearest (quanta_pos_of_value (hr.pos hy.le)) hlow hhigh)

end

theorem shrink_pow (j : ℕ) :
    shrink ^ j = ((2 ^ 53 - 1) ^ j : ℕ) / (2 ^ (53 * j) : ℕ) := by
  have h : shrink = (2 ^ 53 - 1 : ℕ) / (2 ^ 53 : ℕ) := by norm_num [shrink]
  rw [h,div_pow,pow_mul,Nat.cast_pow (2 ^ 53 - 1) j,Nat.cast_pow (2 ^ 53) j]

theorem near_of_quanta {p j a b : ℕ} (hb : 0 < b)
    (hup : a * (2 ^ 53 - 1) ^ j * unit < quanta p * (b * 2 ^ (53 * j)))
    (hdown : quanta p * (2 ^ 53 - 1) ^ j * b < a * (unit * 2 ^ (53 * j))) :
    Near j (a / b) (value p) := by
  have hbpos : (0 : ℚ) < b := Nat.cast_pos.2 hb
  have htwo : (0 : ℚ) < (2 ^ (53 * j) : ℕ) := Nat.cast_pos.2 (Nat.two_pow_pos _)
  constructor
  · rw [shrink_pow,div_mul_div_comm,value,ofQuanta,
      div_lt_div_iff₀ (mul_pos hbpos htwo) unit_pos]
    exact_mod_cast hup
  · rw [shrink_pow,value,ofQuanta,div_mul_div_comm,
      div_lt_div_iff₀ (mul_pos unit_pos htwo) hbpos]
    exact_mod_cast hdown

/-- The quotients of the least coefficients lie below the dense range. -/
theorem near_small : ∀ c < 3, 0 < c →
    c * (2 ^ 53 - 1) ^ 3 * unit <
      quanta (quotient (ofWhole c) (powerOfTen greatestPower)) * (tenMax * 2 ^ (53 * 3)) ∧
    quanta (quotient (ofWhole c) (powerOfTen greatestPower)) * (2 ^ 53 - 1) ^ 3 * tenMax <
      c * (unit * 2 ^ (53 * 3)) := by
  decide +kernel

/-- Those of the other coefficients lie in it. -/
theorem dense_of_near {x q : ℚ} (hlow : 3 ≤ x) (hhigh : x ≤ tenMax) (h : Near 2 (x / tenMax) q) :
    5 ≤ 2 * q * tenMax ∧ q ≤ tenMax := by
  have hmax : (0 : ℚ) < tenMax := zero_lt_one.trans_le tenMax_pos
  have hshrink : (5 : ℚ) ≤ 6 * shrink ^ 2 := by norm_num [shrink]
  constructor
  · have hup := h.up
    rw [div_mul_eq_mul_div,div_lt_iff₀ hmax] at hup
    have hmul := mul_le_mul_of_nonneg_right hlow (pow_pos shrink_pos 2).le
    linarith
  · have hdown := h.down
    rw [lt_div_iff₀ hmax] at hdown
    have hone := lt_of_mul_lt_mul_right (hdown.trans_le (hhigh.trans_eq (one_mul _).symm)) hmax.le
    have hbound := five_le_tenMax
    apply le_of_mul_le_mul_right _ (pow_pos shrink_pos 2)
    nlinarith

theorem near_first_quotient {c : ℕ} (hpos : 0 < c) (hle : c ≤ tenMax) :
    Near 3 (c / tenMax) (value (quotient (ofWhole c) (powerOfTen greatestPower))) := by
  have hmax : (0 : ℚ) < tenMax := zero_lt_one.trans_le tenMax_pos
  rcases Nat.lt_or_ge c 3 with hsmall | hlarge
  · have h := near_small c hsmall hpos
    exact near_of_quanta (Nat.cast_pos.1 hmax) h.1 h.2
  · have hcpos : (0 : ℚ) < c := Nat.cast_pos.2 hpos
    have hc := near_ofWhole hpos hle
    have ht := near_powerOfTen (Nat.le_refl greatestPower)
    rw [← cast_tenMax] at ht
    have hdense := dense_of_near (by exact_mod_cast hlarge) (by exact_mod_cast hle)
      (hc.div ht hcpos hmax)
    exact near_quotient hcpos hmax hc ht hdense.1 hdense.2

section

variable {p c n : ℕ} (hp : 0 < p) (hfin : p < infinite) (hc : c < 2 ^ 64)

include hp

theorem RoundsTo.pos {x : ℚ} (h : RoundsTo p x) : 0 < x := by
  have hlow := h.low
  have hnonneg := value_nonneg (p - 1)
  have hvalue := value_pos hp
  linarith

include hc

/-- A fraction with a denominator beyond all exponents rounds to zero. -/
theorem exponent_lt (h : RoundsTo p (c / 10 ^ n)) : n < 343 := by
  have hone : ofQuanta 1 ≤ value p := by
    have hquanta : quanta 1 = 1 := quanta_of_lt (by decide)
    rw [← hquanta]
    exact value_strictMono.monotone hp
  have hlow := h.low
  have hnonneg := value_nonneg (p - 1)
  have hle : ofQuanta 1 ≤ 2 * (c / 10 ^ n) := by linarith
  rw [ofQuanta,← mul_div_assoc,div_le_div_iff₀ unit_pos (pow_pos (by norm_num) n)] at hle
  have hnat : 1 * Nat.pow 10 n ≤ 2 * c * unit := by exact_mod_cast hle
  rw [Nat.one_mul] at hnat
  have hmul := Nat.mul_le_mul_right unit (Nat.mul_le_mul_left 2 (Nat.le_of_lt hc))
  have hbound := tenMax_bounds.2.2.2.2
  by_contra hn
  generalize 343 = m at hn hbound
  have hpow : Nat.pow 10 m ≤ Nat.pow 10 n :=
    Nat.pow_le_pow_right (by decide) (Nat.le_of_not_lt hn)
  omega

include hfin

theorem scaleUp_dist (h : RoundsTo p (c * 10 ^ n)) : Nat.dist p (scaleUp (ofWhole c) n) ≤ 4 := by
  have hx := h.pos hp
  have hcpos : 0 < c := by
    apply Nat.pos_of_ne_zero
    rintro rfl
    simp at hx
  unfold scaleUp
  split
  · next hn =>
    have hdist := dist_product (Nat.cast_pos.2 hcpos) (pow_pos (by norm_num) n)
      (near_ofWhole hcpos (le_tenMax hc)) (near_powerOfTen hn) h hfin.le
    omega
  · next hn =>
    have hlarge := value_infinite_lt
    have hhigh := h.high
    have hlt := value_strictMono hfin
    have hle := value_strictMono.monotone (Nat.succ_le_of_lt hfin)
    have hnat : 10 * tenMax ≤ c * Nat.pow 10 n :=
      (mul_tenMax_le hn).trans (Nat.le_mul_of_pos_left _ hcpos)
    have hrat : ((10 * tenMax : ℕ) : ℚ) ≤ c * 10 ^ n := by exact_mod_cast hnat
    rw [Nat.succ_eq_add_one] at hle
    linarith

theorem scaleDown_dist (h : RoundsTo p (c / 10 ^ n)) :
    Nat.dist p (scaleDown (ofWhole c) n) ≤ 4 := by
  have hx := h.pos hp
  have hcpos : 0 < c := by
    apply Nat.pos_of_ne_zero
    rintro rfl
    simp at hx
  have hcnear := near_ofWhole hcpos (le_tenMax hc)
  unfold scaleDown
  split
  · next hn =>
    have hdist := dist_quotient (Nat.cast_pos.2 hcpos) (pow_pos (by norm_num) n)
      hcnear (near_powerOfTen hn) h hfin.le
    omega
  · next hn =>
    have hlt : n < 343 := exponent_lt hp hc h
    have hle : n - greatestPower ≤ greatestPower := by
      unfold greatestPower
      omega
    rw [if_pos (by omega)]
    have hmax : (0 : ℚ) < tenMax := zero_lt_one.trans_le tenMax_pos
    have hsplit : (c / 10 ^ n : ℚ) = c / tenMax / 10 ^ (n - greatestPower) := by
      rw [cast_tenMax,div_div,← pow_add,Nat.add_sub_cancel' (Nat.le_of_not_le hn)]
    rw [hsplit] at h
    exact dist_quotient (div_pos (Nat.cast_pos.2 hcpos) hmax) (pow_pos (by norm_num) _)
      (near_first_quotient hcpos (le_tenMax hc)) (near_powerOfTen hle) h hfin.le

end

namespace Decimal

variable {d : Decimal}

theorem value_of_nonneg (h : 0 ≤ d.exponent) : d.value = d.coefficient * 10 ^ d.exponent.toNat := by
  rw [value,ten_zpow,Int.toNat_of_nonpos (Int.neg_nonpos_of_nonneg h)]
  simp

theorem value_of_neg (h : ¬0 ≤ d.exponent) : d.value = d.coefficient / 10 ^ (-d.exponent).toNat := by
  rw [value,ten_zpow,Int.toNat_of_nonpos (Int.le_of_not_le h)]
  simp [div_eq_mul_inv]

end Decimal

/-- A decimal evaluates to a pattern at most four away from the one to which it rounds. -/
theorem toPattern_dist {p : ℕ} {d : Decimal} (hp : 0 < p) (hfin : p < infinite)
    (hc : d.coefficient < 2 ^ 64) (h : RoundsTo p d.value) : Nat.dist p d.toPattern ≤ 4 := by
  unfold Decimal.toPattern
  split
  · next he =>
    rw [d.value_of_nonneg he] at h
    exact scaleUp_dist hp hfin hc h
  · next he =>
    rw [d.value_of_neg he] at h
    exact scaleDown_dist hp hfin hc h

theorem exists_pow_le {n : ℕ} (hpos : 0 < n) (h : n ≤ 2 ^ 53) :
    ∃ k ≤ 52, 2 ^ k ≤ n ∧ n ≤ 2 ^ (k + 1) := by
  rcases Nat.lt_or_eq_of_le h with hlt | rfl
  · refine ⟨n.log2,?_,Nat.log2_self_le hpos.ne',Nat.lt_log2_self.le⟩
    exact Nat.le_of_lt_succ ((Nat.log2_lt hpos.ne').2 hlt)
  · exact ⟨52,Nat.le_refl _,by decide,by decide⟩

theorem two_pow_eq_unit {n : ℕ} (h : n = 1074) : 2 ^ n = unit := by
  unfold unit
  generalize 1074 = m at h ⊢
  rw [h]
  exact Nat.pow_eq.symm

theorem exists_value_eq {n : ℕ} (h : n ≤ 2 ^ 53) : ∃ p < infinite, value p = n := by
  rcases Nat.eq_zero_or_pos n with rfl | hpos
  · exact ⟨0,by decide,by rw [value_zero,Nat.cast_zero]⟩
  · obtain ⟨k,hk,hlow,hhigh⟩ := exists_pow_le hpos h
    have hmlow : 2 ^ 52 ≤ n * 2 ^ (52 - k) := by
      calc 2 ^ 52 = 2 ^ k * 2 ^ (52 - k) := by rw [← Nat.pow_add,Nat.add_sub_cancel' hk]
        _ ≤ n * 2 ^ (52 - k) := Nat.mul_le_mul_right _ hlow
    have hmhigh : n * 2 ^ (52 - k) ≤ 2 ^ 53 := by
      calc n * 2 ^ (52 - k) ≤ 2 ^ (k + 1) * 2 ^ (52 - k) := Nat.mul_le_mul_right _ hhigh
        _ = 2 ^ 53 := by rw [← Nat.pow_add,show k + 1 + (52 - k) = 53 by omega]
    refine ⟨(1022 + k) * 2 ^ 52 + n * 2 ^ (52 - k),?_,?_⟩
    · simp only [infinite,Nat.pow_eq]
      omega
    · rw [value,quanta_of_le hmhigh (.inr hmlow),Nat.mul_assoc,← Nat.pow_add,
        two_pow_eq_unit (by omega),ofQuanta_mul_unit]

theorem value_ofWhole {n : ℕ} (h : n ≤ 2 ^ 53) : value (ofWhole n) = n := by
  obtain ⟨p,hp,hn⟩ := exists_value_eq h
  have hr := roundsTo_value p
  rw [hn] at hr
  rw [ofWhole,nearest_eq Nat.one_pos (by rwa [Nat.cast_one,div_one]) hp.le,hn]

theorem value_powerOfTen {n : ℕ} (h : n ≤ 22) : value (powerOfTen n) = 10 ^ n := by
  have hquanta : ∀ m < 23, quanta (powerOfTen m) = Nat.pow 10 m * unit := by decide +kernel
  rw [value,hquanta n (Nat.lt_succ_of_le h),ofQuanta_mul_unit]
  exact Nat.cast_pow 10 n

/-- A decimal whose coefficient and power of ten are doubles evaluates to the pattern to which it
rounds. -/
theorem toPattern_eq {p : ℕ} {d : Decimal} (hfin : p ≤ infinite) (hc : d.coefficient ≤ 2 ^ 53)
    (he : d.exponent.natAbs ≤ 22) (h : RoundsTo p d.value) : d.toPattern = p := by
  have hwhole := value_ofWhole hc
  have hsmall : ∀ n ≤ 22, n ≤ greatestPower := by
    unfold greatestPower
    omega
  unfold Decimal.toPattern scaleUp scaleDown
  split
  · next hpos =>
    have hn : d.exponent.toNat ≤ 22 := by omega
    rw [d.value_of_nonneg hpos,← hwhole,← value_powerOfTen hn] at h
    rw [if_pos (hsmall _ hn)]
    exact product_eq_of_roundsTo h hfin
  · next hneg =>
    have hn : (-d.exponent).toNat ≤ 22 := by omega
    have hpower := value_powerOfTen hn
    rw [d.value_of_neg hneg,← hwhole,← hpower] at h
    rw [if_pos (hsmall _ hn)]
    apply quotient_eq_of_roundsTo h _ hfin
    rw [hpower]
    exact pow_pos (by norm_num) _

end LSystem.Number
