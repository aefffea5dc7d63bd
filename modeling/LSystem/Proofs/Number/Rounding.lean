import LSystem.Number.Decimal
import Mathlib.Algebra.Order.Field.Basic
import Mathlib.Data.Rat.Cast.Order
import Mathlib.Tactic.FieldSimp
import Mathlib.Tactic.Linarith
import Mathlib.Tactic.NormNum
import Mathlib.Tactic.Positivity
import Mathlib.Tactic.Ring

/-!
# Rounding to doubles

A pattern stands for a number, and the numbers that round to it reach halfway to the numbers of the
two patterns next to it. `nearest` finds the only pattern to which its quotient rounds, as far as
there are finite ones (`nearest_eq`).
-/
namespace LSystem.Number

theorem significand_lt (p : ℕ) : significand p < 2 ^ 53 := by
  simp only [significand,scale,Nat.pow_eq]
  omega

theorem pattern_eq (p : ℕ) : p = scale p * 2 ^ 52 + significand p := by
  simp only [significand,scale,Nat.pow_eq]
  omega

/-- Above the lowest scale the leading bit is set. -/
theorem normal (p : ℕ) : scale p = 0 ∨ 2 ^ 52 ≤ significand p := by
  simp only [significand,scale,Nat.pow_eq]
  omega

theorem quanta_eq (p : ℕ) : quanta p = significand p * 2 ^ scale p := rfl

/-- A significand that has been carried over is found again as well. -/
theorem quanta_of_le {shift m : ℕ} (hm : m ≤ 2 ^ 53) (hs : shift = 0 ∨ 2 ^ 52 ≤ m) :
    quanta (shift * 2 ^ 52 + m) = m * 2 ^ shift := by
  rcases Nat.lt_or_eq_of_le hm with hlt | rfl
  · exact quanta_pattern hlt hs
  · have hcarry : shift * 2 ^ 52 + 2 ^ 53 = (shift + 1) * 2 ^ 52 + 2 ^ 52 := by omega
    have h := @quanta_pattern (shift + 1) (2 ^ 52) (by decide) (.inr (by decide))
    simp only [Nat.pow_eq] at h
    rw [hcarry,h,Nat.pow_succ]
    ring

/-- Patterns go up by one unit of the last place. -/
theorem quanta_succ (p : ℕ) : quanta (p + 1) = quanta p + 2 ^ scale p := by
  have hlt := significand_lt p
  have h := @quanta_of_le (scale p) (significand p + 1) (by omega)
    ((normal p).imp_right fun hn => by omega)
  have hp : scale p * 2 ^ 52 + (significand p + 1) = p + 1 := by
    rw [← Nat.add_assoc,← pattern_eq]
  rw [hp] at h
  rw [h,quanta_eq]
  ring

theorem quanta_strictMono : StrictMono quanta := by
  apply strictMono_nat_of_lt_succ
  intro p
  rw [quanta_succ]
  exact Nat.lt_add_of_pos_right (Nat.two_pow_pos _)

theorem quanta_pred {p : ℕ} (h : 0 < p) : quanta p = quanta (p - 1) + 2 ^ scale (p - 1) := by
  rw [← quanta_succ,Nat.sub_add_cancel h]

theorem quanta_pos {p : ℕ} (h : 0 < p) : 0 < quanta p := by
  rw [quanta_pred h]
  exact Nat.add_pos_right _ (Nat.two_pow_pos _)

/-- The number of quanta in one. -/
def unit : ℕ := Nat.pow 2 1074

/-- A number of quanta as a number. -/
def ofQuanta (n : ℕ) : ℚ := n / unit

/-- The number that a pattern stands for. -/
def value (p : ℕ) : ℚ := ofQuanta (quanta p)

theorem unit_pos : (0 : ℚ) < unit := by
  unfold unit
  generalize 1074 = n
  exact Nat.cast_pos.2 (Nat.two_pow_pos n)

theorem ofQuanta_strictMono : StrictMono ofQuanta := by
  intro m n h
  exact div_lt_div_of_pos_right (Nat.cast_lt.2 h) unit_pos

theorem value_strictMono : StrictMono value := ofQuanta_strictMono.comp quanta_strictMono

theorem value_zero : value 0 = 0 := by
  rw [value,ofQuanta,quanta_of_lt (by decide),Nat.cast_zero,zero_div]

theorem value_nonneg (p : ℕ) : 0 ≤ value p := by
  rw [← value_zero]
  exact value_strictMono.monotone (Nat.zero_le p)

theorem value_pos {p : ℕ} (h : 0 < p) : 0 < value p := by
  rw [← value_zero]
  exact value_strictMono h

/-- The numbers that round to a pattern reach halfway to the two patterns next to it, and have the
ends of this interval where the pattern is even. -/
structure RoundsTo (p : ℕ) (x : ℚ) : Prop where
  low : value (p - 1) + value p ≤ 2 * x
  high : 2 * x ≤ value p + value (p + 1)
  even : 2 * x = value (p - 1) + value p ∨ 2 * x = value p + value (p + 1) → p % 2 = 0

/-- Between the numbers of different patterns there is room for the ends of both intervals. -/
theorem high_le_low {p q : ℕ} (h : p < q) :
    value p + value (p + 1) ≤ value (q - 1) + value q :=
  add_le_add (value_strictMono.monotone (Nat.le_sub_one_of_lt h)) (value_strictMono.monotone h)

/-- The intervals of two patterns meet only at an end of both, where only the even one has it. -/
theorem RoundsTo.not_lt {p q : ℕ} {x : ℚ} (hp : RoundsTo p x) (hq : RoundsTo q x) : ¬p < q := by
  intro hlt
  have hle := high_le_low hlt
  have hhigh := hp.high
  have hlow := hq.low
  have hpe := hp.even (.inr (by linarith))
  have hqe := hq.even (.inl (by linarith))
  have h1 := value_strictMono (show p < q - 1 by omega)
  have h2 := value_strictMono (show p + 1 < q by omega)
  linarith

theorem RoundsTo.unique {p q : ℕ} {x : ℚ} (hp : RoundsTo p x) (hq : RoundsTo q x) : p = q :=
  Nat.le_antisymm (Nat.le_of_not_lt (hq.not_lt hp)) (Nat.le_of_not_lt (hp.not_lt hq))

/-- A number below the upper end of an interval rounds to no pattern above. -/
theorem RoundsTo.le {p q : ℕ} {x : ℚ} (h : RoundsTo p x) (hq : 2 * x < value q + value (q + 1)) :
    p ≤ q := by
  by_contra hlt
  have hle := high_le_low (Nat.lt_of_not_le hlt)
  have hlow := h.low
  linarith

/-- A number above the lower end of an interval rounds to no pattern below. -/
theorem RoundsTo.ge {p q : ℕ} {x : ℚ} (h : RoundsTo p x) (hq : value (q - 1) + value q < 2 * x) :
    q ≤ p := by
  by_contra hlt
  have hle := high_le_low (Nat.lt_of_not_le hlt)
  have hhigh := h.high
  linarith

theorem roundsTo_value (p : ℕ) : RoundsTo p (value p) := by
  have hhigh := value_strictMono (Nat.lt_succ_self p)
  have hlow := value_strictMono.monotone (Nat.sub_le p 1)
  refine ⟨by linarith,by linarith,fun h => ?_⟩
  rcases h with h | h
  · rcases Nat.eq_zero_or_pos p with rfl | hp
    · rfl
    · have hlt := value_strictMono (show p - 1 < p by omega)
      linarith
  · linarith

/-- Numbers in order round to patterns in order. -/
theorem RoundsTo.mono {p q : ℕ} {x y : ℚ} (hp : RoundsTo p x) (hq : RoundsTo q y) (h : x ≤ y) :
    p ≤ q := by
  by_contra hlt
  have hle := high_le_low (Nat.lt_of_not_le hlt)
  have hlow := hp.low
  have hhigh := hq.high
  obtain rfl : x = y := by linarith
  exact hlt (hp.unique hq).le

/-- No pattern is nearer to a number than the one to which it rounds. -/
theorem RoundsTo.abs_sub_le {p : ℕ} {x : ℚ} (h : RoundsTo p x) (q : ℕ) :
    |value p - x| ≤ |value q - x| := by
  have hlow := h.low
  have hhigh := h.high
  rcases Nat.lt_trichotomy q p with hlt | rfl | hlt
  · have hq := value_strictMono hlt
    have hpred := value_strictMono.monotone (show q ≤ p - 1 by omega)
    rw [abs_sub_comm (value q),abs_of_pos (a := x - value q) (by linarith),abs_le]
    exact ⟨by linarith,by linarith⟩
  · exact le_rfl
  · have hq := value_strictMono hlt
    have hsucc := value_strictMono.monotone (show p + 1 ≤ q by omega)
    rw [abs_of_pos (a := value q - x) (by linarith),abs_le]
    exact ⟨by linarith,by linarith⟩

/-- Where another pattern is as near, the number rounds to an even one. -/
theorem RoundsTo.even_of_abs_sub_eq {p q : ℕ} {x : ℚ} (h : RoundsTo p x) (hne : q ≠ p)
    (heq : |value q - x| = |value p - x|) : p % 2 = 0 := by
  have hlow := h.low
  have hhigh := h.high
  apply h.even
  have hsum : 2 * x = value q + value p := by
    rcases abs_eq_abs.1 heq with hsame | hopposite
    · exact absurd (value_strictMono.injective (sub_left_injective hsame)) hne
    · linarith
  rcases Nat.lt_or_gt_of_ne hne with hlt | hlt
  · have hpred := value_strictMono.monotone (show q ≤ p - 1 by omega)
    exact .inl (by linarith)
  · have hsucc := value_strictMono.monotone (show p + 1 ≤ q by omega)
    exact .inr (by linarith)

section

variable {a num den : ℕ} (hd : 0 < den)

include hd

theorem ofQuanta_div_le_iff : ofQuanta num / den ≤ ofQuanta a ↔ num ≤ a * den := by
  unfold ofQuanta
  rw [div_right_comm,div_le_div_iff_of_pos_right unit_pos,div_le_iff₀ (Nat.cast_pos.2 hd)]
  exact_mod_cast Iff.rfl

theorem le_ofQuanta_div_iff : ofQuanta a ≤ ofQuanta num / den ↔ a * den ≤ num := by
  unfold ofQuanta
  rw [div_right_comm,div_le_div_iff_of_pos_right unit_pos,le_div_iff₀ (Nat.cast_pos.2 hd)]
  exact_mod_cast Iff.rfl

theorem ofQuanta_div_eq_iff : ofQuanta num / den = ofQuanta a ↔ num = a * den := by
  rw [le_antisymm_iff,ofQuanta_div_le_iff hd,le_ofQuanta_div_iff hd,Nat.le_antisymm_iff]

end

theorem ofQuanta_mul_unit (n : ℕ) : ofQuanta (n * unit) = n := by
  rw [ofQuanta,Nat.cast_mul,mul_div_cancel_right₀ _ unit_pos.ne']

theorem ofQuanta_mul (k n : ℕ) : ofQuanta (k * n) = k * ofQuanta n := by
  rw [ofQuanta,ofQuanta,Nat.cast_mul,mul_div_assoc]

theorem ofQuanta_add (m n : ℕ) : ofQuanta (m + n) = ofQuanta m + ofQuanta n := by
  simp only [ofQuanta,Nat.cast_add,add_div]

/-- Whether a quotient of quanta rounds to a pattern is a matter of natural numbers. -/
theorem roundsTo_iff {p num den : ℕ} (hd : 0 < den) :
    RoundsTo p (ofQuanta num / den) ↔
      (quanta (p - 1) + quanta p) * den ≤ 2 * num ∧
      2 * num ≤ (quanta p + quanta (p + 1)) * den ∧
      (2 * num = (quanta (p - 1) + quanta p) * den ∨
        2 * num = (quanta p + quanta (p + 1)) * den → p % 2 = 0) := by
  have hlow : value (p - 1) + value p = ofQuanta (quanta (p - 1) + quanta p) :=
    (ofQuanta_add _ _).symm
  have hhigh : value p + value (p + 1) = ofQuanta (quanta p + quanta (p + 1)) :=
    (ofQuanta_add _ _).symm
  have htwo : 2 * (ofQuanta num / den) = ofQuanta (2 * num) / den := by
    rw [two_mul,two_mul,ofQuanta_add,add_div]
  rw [← le_ofQuanta_div_iff hd,← ofQuanta_div_le_iff hd,← ofQuanta_div_eq_iff hd,
    ← ofQuanta_div_eq_iff hd,← htwo,← hlow,← hhigh]
  exact ⟨fun h => ⟨h.low,h.high,h.even⟩,fun h => ⟨h.1,h.2.1,h.2.2⟩⟩

/-- The numbers that round to a pattern are those of the decidable test. -/
theorem roundsTo_eq_true_iff {p num den : ℕ} (hd : 0 < den) :
    roundsTo p (2 * num) den = true ↔ RoundsTo p (ofQuanta num / den) := by
  rw [roundsTo_iff hd]
  unfold roundsTo
  by_cases he : p % 2 = 0
  · simp only [he,if_true,decide_eq_true_eq,implies_true,and_true]
  · simp only [he,if_false,decide_eq_true_eq,not_or,imp_false]
    omega

theorem roundDiv_tie {num den : ℕ} (h : 2 * num = 2 * (roundDiv num den * den) + den ∨
    2 * num + den = 2 * (roundDiv num den * den)) (hd : 0 < den) : roundDiv num den % 2 = 0 := by
  apply roundDiv_even_of_tie
  have hdm := Nat.div_add_mod num den
  have hr := Nat.mod_lt num hd
  have hs : (num / den + 1) * den = num / den * den + den := Nat.succ_mul _ _
  rw [Nat.mul_comm] at hdm
  rcases roundDiv_eq_or num den with he | he
  · rw [he] at h
    omega
  · rw [he,hs] at h
    omega

/-- The scale of the pattern to which a number of quanta rounds. -/
def nearestScale (num den : ℕ) : ℕ := (num / den).log2 - 52

/-- The significand of this pattern, or the carry out of it. -/
def nearestSignificand (num den : ℕ) : ℕ := roundDiv num (den * 2 ^ nearestScale num den)

/-- The pattern to which a number of quanta would round if there were no greatest one. -/
def unbounded (num den : ℕ) : ℕ := nearestScale num den * 2 ^ 52 + nearestSignificand num den

theorem nearest_eq_min (num den : ℕ) :
    nearest num den = min (unbounded (num * unit) den) infinite := by
  unfold nearest unit
  generalize Nat.pow 2 1074 = u
  rfl

section

variable (num : ℕ) {den : ℕ} (hd : 0 < den)

include hd

theorem nearestScale_low :
    nearestScale num den = 0 ∨ 2 ^ 52 * (den * 2 ^ nearestScale num den) ≤ num := by
  rw [or_iff_not_imp_left]
  intro hs
  have hlog : 52 + nearestScale num den = (num / den).log2 := by
    simp only [nearestScale] at hs ⊢
    omega
  have hne : num / den ≠ 0 := by
    intro h
    simp [nearestScale,h] at hs
  have hle := Nat.log2_self_le hne
  rw [← hlog,Nat.le_div_iff_mul_le hd,Nat.pow_add] at hle
  calc 2 ^ 52 * (den * 2 ^ nearestScale num den)
      = 2 ^ 52 * 2 ^ nearestScale num den * den := by ring
    _ ≤ num := hle

theorem nearestScale_high : num < 2 ^ 53 * (den * 2 ^ nearestScale num den) := by
  have hlt : num / den < 2 ^ ((num / den).log2 + 1) := Nat.lt_log2_self
  have hle : (num / den).log2 + 1 ≤ 53 + nearestScale num den := by
    simp only [nearestScale]
    omega
  have hpow := Nat.lt_of_lt_of_le hlt (Nat.pow_le_pow_right (by decide) hle)
  rw [Nat.div_lt_iff_lt_mul hd,Nat.pow_add] at hpow
  calc num < 2 ^ 53 * 2 ^ nearestScale num den * den := hpow
    _ = 2 ^ 53 * (den * 2 ^ nearestScale num den) := by ring

theorem nearestSignificand_le : nearestSignificand num den ≤ 2 ^ 53 := by
  have h := roundDiv_mono (nearestScale_high num hd).le (den * 2 ^ nearestScale num den)
  rwa [roundDiv_mul (Nat.mul_pos hd (Nat.two_pow_pos _))] at h

theorem nearestSignificand_normal :
    nearestScale num den = 0 ∨ 2 ^ 52 ≤ nearestSignificand num den := by
  apply (nearestScale_low num hd).imp_right
  intro h
  have hmono := roundDiv_mono h (den * 2 ^ nearestScale num den)
  rwa [roundDiv_mul (Nat.mul_pos hd (Nat.two_pow_pos _))] at hmono

theorem quanta_unbounded :
    quanta (unbounded num den) = nearestSignificand num den * 2 ^ nearestScale num den :=
  quanta_of_le (nearestSignificand_le num hd) (nearestSignificand_normal num hd)

/-- The rounded number is off by at most half a unit of its scale, and where it is off by as much
the pattern is even. -/
theorem quanta_unbounded_error :
    2 * (quanta (unbounded num den) * den) ≤ 2 * num + 2 ^ nearestScale num den * den ∧
      2 * num ≤ 2 * (quanta (unbounded num den) * den) + 2 ^ nearestScale num den * den ∧
      (2 * num = 2 * (quanta (unbounded num den) * den) + 2 ^ nearestScale num den * den ∨
        2 * num + 2 ^ nearestScale num den * den = 2 * (quanta (unbounded num den) * den) →
          unbounded num den % 2 = 0) := by
  have hpos : 0 < den * 2 ^ nearestScale num den := Nat.mul_pos hd (Nat.two_pow_pos _)
  have hparity : unbounded num den % 2 = nearestSignificand num den % 2 := by
    simp only [unbounded]
    omega
  have hquanta : quanta (unbounded num den) * den =
      nearestSignificand num den * (den * 2 ^ nearestScale num den) := by
    rw [quanta_unbounded num hd]
    ring
  rw [hparity,hquanta,Nat.mul_comm (2 ^ nearestScale num den)]
  exact ⟨roundDiv_le hpos,roundDiv_ge hpos,fun h => roundDiv_tie h hpos⟩

/-- The unit below the pattern is that of its scale, or the number is not below the pattern. -/
theorem scale_pred_unbounded (hp : 0 < unbounded num den) :
    2 ^ nearestScale num den ≤ 2 ^ scale (unbounded num den - 1) ∨
      quanta (unbounded num den) * den ≤ num := by
  have hnormal := nearestSignificand_normal num hd
  by_cases hlt : nearestScale num den = 0 ∨ 2 ^ 52 < nearestSignificand num den
  · left
    apply Nat.pow_le_pow_right (by decide)
    simp only [unbounded,scale,Nat.pow_eq] at hp ⊢
    omega
  · right
    have hm : nearestSignificand num den = 2 ^ 52 := by omega
    have hlow := (nearestScale_low num hd).resolve_left fun h => hlt (.inl h)
    rw [quanta_unbounded num hd,hm]
    calc 2 ^ 52 * 2 ^ nearestScale num den * den
        = 2 ^ 52 * (den * 2 ^ nearestScale num den) := by ring
      _ ≤ num := hlow

/-- Every quotient of quanta rounds to a pattern. -/
theorem roundsTo_unbounded : RoundsTo (unbounded num den) (ofQuanta num / den) := by
  obtain ⟨hle,hge,htie⟩ := quanta_unbounded_error num hd
  have habove : 2 ^ nearestScale num den * den ≤ 2 ^ scale (unbounded num den) * den := by
    have hnormal := nearestSignificand_normal num hd
    apply Nat.mul_le_mul_right
    apply Nat.pow_le_pow_right (by decide)
    simp only [unbounded,scale,Nat.pow_eq]
    omega
  rw [roundsTo_iff hd,quanta_succ]
  rcases Nat.eq_zero_or_pos (unbounded num den) with hzero | hp
  · have hq : quanta 0 = 0 := quanta_of_lt (by decide)
    rw [hzero] at hge habove ⊢
    simp only [Nat.zero_sub,hq,Nat.zero_mul,Nat.mul_zero,Nat.zero_add] at hge ⊢
    exact ⟨Nat.zero_le _,by omega,fun _ => trivial⟩
  · have hlow : 0 < 2 ^ scale (unbounded num den - 1) * den := Nat.mul_pos (Nat.two_pow_pos _) hd
    have hbelow := (scale_pred_unbounded num hd hp).imp_left (Nat.mul_le_mul_right den)
    have hquanta := congrArg (· * den) (quanta_pred hp)
    simp only [Nat.add_mul] at hquanta ⊢
    refine ⟨by omega,by omega,fun h => htie ?_⟩
    omega

end

section

variable {p num den : ℕ} (hd : 0 < den)

include hd

theorem roundsTo_unbounded_quotient :
    RoundsTo (unbounded (num * unit) den) (num / den) := by
  have hu := roundsTo_unbounded (num * unit) hd
  rwa [ofQuanta_mul_unit] at hu

/-- A pattern is nearest to the quotients that round to it. -/
theorem nearest_eq (h : RoundsTo p (num / den)) (hp : p ≤ infinite) : nearest num den = p := by
  rw [nearest_eq_min,(roundsTo_unbounded_quotient hd).unique h,Nat.min_eq_left hp]

theorem roundsTo_nearest (h : nearest num den < infinite) :
    RoundsTo (nearest num den) (num / den) := by
  have hu := @roundsTo_unbounded_quotient num den hd
  have hmin := nearest_eq_min num den
  rw [hmin] at h ⊢
  rwa [Nat.min_eq_left (by omega)]

/-- Quotients in order have nearest patterns in order. -/
theorem nearest_mono {num' : ℕ} (h : num ≤ num') : nearest num den ≤ nearest num' den := by
  have hle : (num / den : ℚ) ≤ num' / den := by gcongr
  rw [nearest_eq_min,nearest_eq_min]
  exact min_le_min_right _
    ((roundsTo_unbounded_quotient hd).mono (roundsTo_unbounded_quotient hd) hle)

theorem nearest_le (h : 2 * (num / den : ℚ) < value p + value (p + 1)) : nearest num den ≤ p := by
  rw [nearest_eq_min]
  exact Nat.le_trans (Nat.min_le_left _ _) ((roundsTo_unbounded_quotient hd).le h)

theorem le_nearest (h : value (p - 1) + value p < 2 * (num / den : ℚ)) (hp : p ≤ infinite) :
    p ≤ nearest num den := by
  rw [nearest_eq_min]
  exact Nat.le_min.2 ⟨(roundsTo_unbounded_quotient hd).ge h,hp⟩

end

end LSystem.Number
