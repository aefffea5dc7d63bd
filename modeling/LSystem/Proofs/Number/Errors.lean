import LSystem.Proofs.Number.Shortest
import Mathlib.Data.Nat.Dist

/-!
# Errors of rounding

`Near j x y` says that `j` roundings may lead from one number to the other. From a pattern to the next
one numbers grow at least by a rounding, so what is near to a number that rounds to a pattern rounds
to a pattern that is at most `j` away (`Near.dist_nearest_le`).
-/
namespace LSystem.Number

/-- The ratio of a number to a greater one from which it differs by a rounding. -/
def shrink : ℚ := 1 - 1 / 2 ^ 53

theorem shrink_pos : 0 < shrink := by norm_num [shrink]

/-- Numbers that differ by at most `j` roundings. -/
structure Near (j : ℕ) (x y : ℚ) : Prop where
  up : x * shrink ^ j < y
  down : y * shrink ^ j < x

namespace Near

variable {i j : ℕ} {a b c d : ℚ}

theorem pos (h : Near j a b) (ha : 0 ≤ a) : 0 < b :=
  (mul_nonneg ha (pow_pos shrink_pos j).le).trans_lt h.up

theorem trans (h : Near i a b) (h' : Near j b c) : Near (i + j) a c := by
  have hi := pow_pos shrink_pos i
  have hj := pow_pos shrink_pos j
  constructor
  · calc a * shrink ^ (i + j) = a * shrink ^ i * shrink ^ j := by rw [pow_add,mul_assoc]
      _ < b * shrink ^ j := mul_lt_mul_of_pos_right h.up hj
      _ < c := h'.up
  · calc c * shrink ^ (i + j) = c * shrink ^ j * shrink ^ i := by rw [add_comm,pow_add,mul_assoc]
      _ < b * shrink ^ i := mul_lt_mul_of_pos_right h'.down hi
      _ < a := h.down

theorem mul (h : Near i a b) (h' : Near j c d) (ha : 0 < a) (hc : 0 < c) :
    Near (i + j) (a * c) (b * d) := by
  have hi := pow_pos shrink_pos i
  have hj := pow_pos shrink_pos j
  have hb := h.pos ha.le
  have hd := h'.pos hc.le
  constructor
  · calc a * c * shrink ^ (i + j) = a * shrink ^ i * (c * shrink ^ j) := by ring
      _ < b * d := mul_lt_mul'' h.up h'.up (by positivity) (by positivity)
  · calc b * d * shrink ^ (i + j) = b * shrink ^ i * (d * shrink ^ j) := by ring
      _ < a * c := mul_lt_mul'' h.down h'.down (by positivity) (by positivity)

theorem inv (h : Near j a b) (ha : 0 < a) : Near j a⁻¹ b⁻¹ := by
  have hb := h.pos ha.le
  constructor
  · rw [inv_mul_eq_div,div_lt_iff₀ ha,inv_mul_eq_div,lt_div_iff₀ hb,mul_comm]
    exact h.down
  · rw [inv_mul_eq_div,div_lt_iff₀ hb,inv_mul_eq_div,lt_div_iff₀ ha,mul_comm]
    exact h.up

theorem div (h : Near i a b) (h' : Near j c d) (ha : 0 < a) (hc : 0 < c) :
    Near (i + j) (a / c) (b / d) := by
  rw [div_eq_mul_inv,div_eq_mul_inv]
  exact h.mul (h'.inv hc) ha (inv_pos.2 hc)

end Near

/-- From a pattern to the next one numbers grow at least by a rounding. -/
theorem value_le_shrink (p : ℕ) : value p ≤ value (p + 1) * shrink := by
  have h := value_le_half_units (Nat.add_one_pos p)
  rw [Nat.add_sub_cancel] at h
  unfold shrink
  linarith

theorem value_le_shrink_pow (p j : ℕ) : value p ≤ value (p + j) * shrink ^ j := by
  induction j with
  | zero => rw [Nat.add_zero,pow_zero,mul_one]
  | succ j ih =>
    calc value p ≤ value (p + j) * shrink ^ j := ih
      _ ≤ value (p + j + 1) * shrink * shrink ^ j :=
          mul_le_mul_of_nonneg_right (value_le_shrink _) (pow_pos shrink_pos j).le
      _ = value (p + (j + 1)) * shrink ^ (j + 1) := by
          rw [Nat.add_assoc]
          ring

section

variable {p j num den : ℕ} {x : ℚ} (h : Near j x (num / den)) (hr : RoundsTo p x) (hd : 0 < den)

include h hr hd

theorem Near.nearest_le : nearest num den ≤ p + j := by
  apply Number.nearest_le hd
  have h1 := value_le_shrink_pow p j
  have h2 := value_le_shrink_pow (p + 1) j
  rw [Nat.add_right_comm] at h2
  have hdown := h.down
  have hhigh := hr.high
  refine lt_of_mul_lt_mul_right ?_ (pow_pos shrink_pos j).le
  linarith

theorem Near.le_nearest (hp : p ≤ infinite) : p ≤ nearest num den + j := by
  rw [← Nat.sub_le_iff_le_add]
  apply Number.le_nearest hd _ (by omega)
  rcases Nat.lt_or_ge j p with hlt | hge
  · have h1 := value_le_shrink_pow (p - j - 1) j
    have h2 := value_le_shrink_pow (p - j) j
    rw [show p - j - 1 + j = p - 1 by omega] at h1
    rw [Nat.sub_add_cancel hlt.le] at h2
    have hup := h.up
    have hlow := mul_le_mul_of_nonneg_right hr.low (pow_pos shrink_pos j).le
    linarith
  · have hx : 0 ≤ x := by linarith [hr.low,value_nonneg (p - 1),value_nonneg p]
    rw [Nat.sub_eq_zero_of_le hge,Nat.zero_sub,value_zero]
    linarith [h.pos hx]

/-- What is `j` roundings away from a number rounds to a pattern at most `j` away from that of the
number. -/
theorem Near.dist_nearest_le (hp : p ≤ infinite) : Nat.dist p (nearest num den) ≤ j := by
  have hhigh := h.nearest_le hr hd
  have hlow := h.le_nearest hr hd hp
  unfold Nat.dist
  omega

end

/-- The patterns above the lowest scale are dense. -/
theorem dense_units {p : ℕ} (hp : 2 ^ 52 ≤ p) : 2 ^ 52 * (value (p + 1) - value p) ≤ value p := by
  have hm : 2 ^ 52 ≤ significand p := by
    simp only [significand,scale,Nat.pow_eq]
    omega
  have hnat : 2 ^ 52 * quanta (p + 1) ≤ 2 ^ 52 * quanta p + quanta p := by
    have hpos := Nat.mul_le_mul_right (2 ^ scale p) hm
    rw [quanta_succ,quanta_eq] at *
    omega
  have hvalue := ofQuanta_strictMono.monotone hnat
  rw [ofQuanta_add,ofQuanta_mul,ofQuanta_mul] at hvalue
  push_cast at hvalue
  unfold value
  linarith

/-- A number and the dense pattern to which it rounds. -/
theorem RoundsTo.near {p : ℕ} {x : ℚ} (h : RoundsTo p x) (hp : 2 ^ 52 < p) : Near 1 x (value p) := by
  have habove := dense_units hp.le
  have hbelow := dense_units (Nat.le_sub_one_of_lt hp)
  rw [Nat.sub_add_cancel (by omega)] at hbelow
  have h1 := value_strictMono (show p - 1 < p by omega)
  have h2 := value_strictMono (Nat.lt_succ_self p)
  have hlow := h.low
  have hhigh := h.high
  constructor
  · rw [pow_one]
    unfold shrink
    linarith
  · rw [pow_one]
    unfold shrink
    linarith

end LSystem.Number
