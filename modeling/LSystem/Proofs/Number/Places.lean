import LSystem.Number.Places
import LSystem.Proofs.Number.Shortest
import Mathlib.Data.Nat.Prime.Basic

/-!
# Rounding magnitudes to decimal places

A magnitude is rounded twice, to a whole number of units of the last decimal place and then to the
pattern nearest to that many units. Both steps keep the order of magnitudes and neither leaves the
finite ones (`roundMagnitude_mono`, `roundMagnitude_lt_infinite`).

With five places a second rounding changes nothing (`roundMagnitude_idem`). Below 2³⁶ neighbouring
patterns are closer than the decimals, and the first decimal is found again. From there on the decimals
are closer than the patterns, and the pattern itself is found again.

A rounded magnitude is less than a unit of the last place away (`abs_value_roundMagnitude_sub_lt`): at
most half a unit up to the decimal and no more from there, and a whole unit is no distance of doubles.
-/
namespace LSystem.Number

/-- A whole number to which no integer is nearer than it is. Where another one is as near, it is the
even one of the two. -/
structure NearestWhole (q : ℕ) (y : ℚ) : Prop where
  nearest : ∀ n : ℤ, |q - y| ≤ |n - y|
  even : ∀ n : ℤ, n ≠ q → |n - y| = |q - y| → q % 2 = 0

/-- Two whole numbers cannot both be less than a half away. -/
theorem one_le_abs_sub_add {q : ℕ} {n : ℤ} (h : n ≠ q) (y : ℚ) : 1 ≤ |n - y| + |q - y| := by
  have hone : (1 : ℚ) ≤ |(n : ℚ) - (q : ℤ)| := by
    exact_mod_cast Int.one_le_abs (sub_ne_zero.2 h)
  have htri := abs_sub_le (n : ℚ) y (q : ℤ)
  rw [abs_sub_comm y,Int.cast_natCast] at htri
  rw [Int.cast_natCast] at hone
  exact hone.trans htri

/-- Nearest whole numbers are those at most a half away, and even where it is a half. -/
theorem nearestWhole_iff {q : ℕ} {y : ℚ} :
    NearestWhole q y ↔ |q - y| ≤ 1 / 2 ∧ (|q - y| = 1 / 2 → q % 2 = 0) := by
  constructor
  · intro h
    have hup := h.nearest (q + 1)
    have hdown := h.nearest (q - 1)
    push_cast at hup hdown
    have hle : |q - y| ≤ 1 / 2 := by
      rcases le_total (q : ℚ) y with hy | hy
      · rw [abs_of_nonpos (by linarith)] at hup ⊢
        rcases abs_cases (q + 1 - y) with ⟨he,-⟩ | ⟨he,-⟩ <;> linarith
      · rw [abs_of_nonneg (by linarith)] at hdown ⊢
        rcases abs_cases (q - 1 - y) with ⟨he,-⟩ | ⟨he,-⟩ <;> linarith
    refine ⟨hle,fun htie => ?_⟩
    rcases abs_eq (by norm_num) |>.1 htie with he | he
    · apply h.even (q - 1) (by omega)
      push_cast
      rw [htie,show (q : ℚ) - 1 - y = -(1 / 2) by linarith,abs_neg,abs_of_pos (by norm_num)]
    · apply h.even (q + 1) (by omega)
      push_cast
      rw [htie,show (q : ℚ) + 1 - y = 1 / 2 by linarith,abs_of_pos (by norm_num)]
  · rintro ⟨hle,htie⟩
    refine ⟨fun n => ?_,fun n hne heq => htie ?_⟩
    · by_cases hne : n = q
      · rw [hne,Int.cast_natCast]
      · have hone := one_le_abs_sub_add hne y
        linarith
    · have hone := one_le_abs_sub_add hne y
      linarith

theorem NearestWhole.unique {q r : ℕ} {y : ℚ} (hq : NearestWhole q y) (hr : NearestWhole r y) :
    q = r := by
  by_contra hne
  have hsame : |(r : ℚ) - y| = |q - y| := le_antisymm (hr.nearest q) (hq.nearest r)
  have hqeven := hq.even r (by omega) hsame
  have hreven := hr.even q (by omega) hsame.symm
  obtain ⟨hq,-⟩ := nearestWhole_iff.1 hq
  obtain ⟨hr,-⟩ := nearestWhole_iff.1 hr
  have hdist : |(q : ℚ) - r| < 2 := by
    have htri := abs_sub_le (q : ℚ) y r
    rw [abs_sub_comm y] at htri
    linarith
  have hdist' : |(q : ℤ) - r| < 2 := by exact_mod_cast hdist
  rw [abs_lt] at hdist'
  omega

theorem nearestWhole_roundDiv {num den : ℕ} (hd : 0 < den) :
    NearestWhole (roundDiv num den) (num / den) := by
  have hpos : (0 : ℚ) < den := Nat.cast_pos.2 hd
  have hle : (2 * (roundDiv num den * den) : ℚ) ≤ 2 * num + den := by
    exact_mod_cast roundDiv_le hd
  have hge : (2 * num : ℚ) ≤ 2 * (roundDiv num den * den) + den := by
    exact_mod_cast roundDiv_ge hd
  have hquot : (num / den : ℚ) * den = num := div_mul_cancel₀ _ hpos.ne'
  rw [nearestWhole_iff]
  generalize (num / den : ℚ) = y at *
  refine ⟨?_,fun htie => roundDiv_tie ?_ hd⟩
  · rw [abs_le]
    constructor <;> nlinarith
  · rcases abs_eq (by norm_num) |>.1 htie with he | he
    · right
      have heq : (2 * num + den : ℚ) = 2 * (roundDiv num den * den) := by
        rw [← hquot,show y = roundDiv num den - 1 / 2 by linarith]
        ring
      exact_mod_cast heq
    · left
      have heq : (2 * num : ℚ) = 2 * (roundDiv num den * den) + den := by
        rw [← hquot,show y = roundDiv num den + 1 / 2 by linarith]
        ring
      exact_mod_cast heq

/-- A magnitude as a whole number of units of the last decimal place. -/
def decimalUnits (places p : ℕ) : ℕ := roundDiv (quanta p * 10 ^ places) unit

theorem roundMagnitude_eq (places p : ℕ) :
    roundMagnitude places p = nearest (decimalUnits places p) (10 ^ places) := by
  unfold roundMagnitude decimalUnits unit
  generalize Nat.pow 2 1074 = u
  rfl

theorem nearestWhole_decimalUnits (places p : ℕ) :
    NearestWhole (decimalUnits places p) (value p * 10 ^ places) := by
  have h := @nearestWhole_roundDiv (quanta p * 10 ^ places) unit (Nat.cast_pos.1 unit_pos)
  rw [Nat.cast_mul,Nat.cast_pow,Nat.cast_ofNat,mul_div_right_comm] at h
  exact h

/-- The decimal is at most half a unit of the last place away. -/
theorem abs_decimal_sub_le (places p : ℕ) :
    |decimalUnits places p / 10 ^ places - value p| ≤ 1 / 2 / 10 ^ places := by
  have hpos : (0 : ℚ) < 10 ^ places := by positivity
  have hle := (nearestWhole_iff.1 (nearestWhole_decimalUnits places p)).1
  have hsub : decimalUnits places p / 10 ^ places - value p =
      (decimalUnits places p - value p * 10 ^ places) / 10 ^ places := by
    rw [sub_div,mul_div_cancel_right₀ _ hpos.ne']
  rw [hsub,abs_div,abs_of_pos hpos]
  exact div_le_div_of_nonneg_right hle hpos.le

/-- A magnitude that is a decimal with this many places stays as it is. -/
theorem roundMagnitude_of_decimal {places p n : ℕ} (h : value p * 10 ^ places = n)
    (hp : p ≤ infinite) : roundMagnitude places p = p := by
  have hunits : decimalUnits places p = n := by
    apply (nearestWhole_decimalUnits places p).unique
    rw [h,nearestWhole_iff,sub_self,abs_zero]
    norm_num
  rw [roundMagnitude_eq,hunits]
  apply nearest_eq (Nat.pow_pos (by decide)) _ hp
  rw [← h,Nat.cast_pow,Nat.cast_ofNat,mul_div_cancel_right₀ _ (by positivity)]
  exact roundsTo_value p

theorem roundMagnitude_of_whole {p n : ℕ} (places : ℕ) (h : value p = n) (hp : p ≤ infinite) :
    roundMagnitude places p = p := by
  apply roundMagnitude_of_decimal (n := n * 10 ^ places) _ hp
  rw [h,Nat.cast_mul,Nat.cast_pow,Nat.cast_ofNat]

theorem roundMagnitude_mono (places : ℕ) : Monotone (roundMagnitude places) := by
  intro p q h
  rw [roundMagnitude_eq,roundMagnitude_eq]
  apply nearest_mono (Nat.pow_pos (by decide))
  apply roundDiv_mono
  exact Nat.mul_le_mul_right _ (quanta_strictMono.monotone h)

/-- The distance from a pattern to the next one. -/
def spacing (p : ℕ) : ℚ := 2 ^ ((scale p : ℤ) - 1074)

theorem spacing_eq (p : ℕ) : spacing p = ofQuanta (2 ^ scale p) := by
  rw [spacing,ofQuanta,unit_eq,zpow_sub₀ (by norm_num)]
  norm_cast

theorem value_succ (p : ℕ) : value (p + 1) = value p + spacing p := by
  rw [value,quanta_succ,ofQuanta_add,spacing_eq]
  rfl

theorem value_eq (p : ℕ) : value p = significand p * spacing p := by
  rw [spacing_eq,← ofQuanta_mul]
  rfl

theorem spacing_mono : Monotone spacing := by
  intro p q h
  apply zpow_le_zpow_right₀ (by norm_num)
  have hscale : scale p ≤ scale q := by
    simp only [scale,Nat.pow_eq]
    omega
  omega

/-- Where the unit of the last place is a whole number the patterns stand for whole numbers, and so do
the powers of two from one on. -/
theorem exists_whole {p : ℕ} (h : 1074 ≤ scale p ∨ significand p = 2 ^ 52 ∧ 1022 ≤ scale p) :
    ∃ n : ℕ, value p = n := by
  rw [value_eq,spacing]
  rcases h with h | ⟨hs,h⟩
  · refine ⟨significand p * 2 ^ (scale p - 1074),?_⟩
    rw [show (scale p : ℤ) - 1074 = (scale p - 1074 : ℕ) by omega,zpow_natCast]
    push_cast
    rfl
  · refine ⟨2 ^ (scale p - 1022),?_⟩
    have htwo : ((2 ^ 52 : ℕ) : ℚ) = 2 ^ (52 : ℤ) := by norm_num
    rw [hs,htwo,← zpow_add₀ (by norm_num),
      show 52 + ((scale p : ℤ) - 1074) = (scale p - 1022 : ℕ) by omega,zpow_natCast]
    push_cast
    rfl

theorem roundMagnitude_infinite (places : ℕ) : roundMagnitude places infinite = infinite := by
  obtain ⟨n,hn⟩ := exists_whole (p := infinite) (.inl (by decide))
  exact roundMagnitude_of_whole places hn le_rfl

/-- A finite magnitude is rounded to a finite one. -/
theorem roundMagnitude_lt_infinite (places : ℕ) {p : ℕ} (h : p < infinite) :
    roundMagnitude places p < infinite := by
  obtain ⟨n,hn⟩ := exists_whole (p := infinite - 1) (.inl (by decide))
  have hlast := roundMagnitude_of_whole places hn (Nat.sub_le _ _)
  have hle := roundMagnitude_mono places (Nat.le_sub_one_of_lt h)
  rw [hlast] at hle
  omega

theorem roundMagnitude_le_infinite (places : ℕ) {p : ℕ} (h : p ≤ infinite) :
    roundMagnitude places p ≤ infinite := by
  have hle := roundMagnitude_mono places h
  rwa [roundMagnitude_infinite] at hle

theorem roundsTo_roundMagnitude (places : ℕ) {p : ℕ} (h : p < infinite) :
    RoundsTo (roundMagnitude places p) (decimalUnits places p / 10 ^ places) := by
  have hlt := roundMagnitude_lt_infinite places h
  rw [roundMagnitude_eq] at hlt ⊢
  have hround := roundsTo_nearest (Nat.pow_pos (by decide)) hlt
  rwa [Nat.cast_pow,Nat.cast_ofNat] at hround

/-- From 2³⁶ on the decimals are closer than the patterns: they are 10⁻⁵ apart, and the patterns 2⁻¹⁶ or
more. The decimal nearest to a pattern lies inside the interval of the numbers that round to it, and a
power of two, whose interval is shorter below, is a decimal itself. -/
theorem roundMagnitude_of_large {p : ℕ} (h : 1058 ≤ scale p) (hp : p ≤ infinite) :
    roundMagnitude 5 p = p := by
  by_cases hs : significand p = 2 ^ 52
  · obtain ⟨n,hn⟩ := exists_whole (.inr ⟨hs,by omega⟩)
    exact roundMagnitude_of_whole 5 hn hp
  have hpred : p - 1 + 1 = p ∧ scale (p - 1) = scale p := by
    simp only [significand,scale,Nat.pow_eq] at *
    omega
  have hbelow : value p = value (p - 1) + spacing p := by
    have hsucc := value_succ (p - 1)
    have hsame : spacing (p - 1) = spacing p := by rw [spacing,hpred.2,spacing]
    rwa [hpred.1,hsame] at hsucc
  have habove := value_succ p
  have hspacing : 2 ^ (-16 : ℤ) ≤ spacing p := zpow_le_zpow_right₀ (by norm_num) (by omega)
  have hclose := abs_decimal_sub_le 5 p
  rw [roundMagnitude_eq]
  apply nearest_eq (by decide) _ hp
  rw [Nat.cast_pow,Nat.cast_ofNat]
  generalize (decimalUnits 5 p / 10 ^ 5 : ℚ) = x at hclose ⊢
  norm_num at hspacing hclose
  obtain ⟨hlow,hhigh⟩ := abs_le.1 hclose
  refine ⟨by linarith,by linarith,fun htie => ?_⟩
  rcases htie with htie | htie <;> linarith

theorem RoundsTo.abs_sub_le_spacing {p : ℕ} {x : ℚ} (h : RoundsTo p x) :
    |value p - x| ≤ spacing p / 2 := by
  have hlow := h.low
  have hhigh := h.high
  have habove := value_succ p
  have hbelow : value p ≤ value (p - 1) + spacing p := by
    have hsucc := value_succ (p - 1)
    have hmono := spacing_mono (Nat.sub_le p 1)
    have hle := value_strictMono.monotone (show p ≤ p - 1 + 1 by omega)
    linarith
  rw [abs_le]
  constructor <;> linarith

/-- Below 2³⁶ the patterns are closer than the decimals, so the decimal next to the pattern nearest to
it is the same one. -/
theorem decimalUnits_of_roundsTo {p n : ℕ} (h : scale p < 1058) (hround : RoundsTo p (n / 10 ^ 5)) :
    decimalUnits 5 p = n := by
  have hspacing : spacing p ≤ 2 ^ (-17 : ℤ) := zpow_le_zpow_right₀ (by norm_num) (by omega)
  have hclose := hround.abs_sub_le_spacing
  have hlt : |(n : ℚ) - value p * 10 ^ 5| < 1 / 2 := by
    norm_num at hspacing hclose
    rw [abs_le] at hclose
    rw [abs_lt]
    constructor <;> linarith
  apply (nearestWhole_decimalUnits 5 p).unique
  rw [nearestWhole_iff]
  exact ⟨hlt.le,fun htie => absurd htie hlt.ne⟩

/-- What has been rounded to five places stays as it is. -/
theorem roundMagnitude_idem {p : ℕ} (hp : p < infinite) :
    roundMagnitude 5 (roundMagnitude 5 p) = roundMagnitude 5 p := by
  have hround := roundsTo_roundMagnitude 5 hp
  rcases Nat.lt_or_ge (scale (roundMagnitude 5 p)) 1058 with h | h
  · rw [roundMagnitude_eq,decimalUnits_of_roundsTo h hround,← roundMagnitude_eq]
  · exact roundMagnitude_of_large h (roundMagnitude_lt_infinite 5 hp).le

theorem five_not_dvd_unit : ¬5 ∣ unit := by
  intro h
  unfold unit at h
  generalize 1074 = n at h
  exact absurd (Nat.prime_five.dvd_of_dvd_pow h) (by decide)

/-- A quantum is a power of a half, so no number of quanta makes up a unit of a decimal place. -/
theorem ofQuanta_ne_decimal {places : ℕ} (h : 0 < places) (n : ℕ) :
    ofQuanta n ≠ 1 / 10 ^ places := by
  intro heq
  rw [ofQuanta,div_eq_div_iff unit_pos.ne' (by positivity),one_mul] at heq
  have hunit : n * 10 ^ places = unit := by exact_mod_cast heq
  have hfive : 5 ∣ 10 ^ places := dvd_pow (by decide) h.ne'
  exact five_not_dvd_unit (hunit ▸ hfive.mul_left n)

/-- The distance of two patterns is a whole number of quanta. -/
theorem exists_abs_sub_eq (p q : ℕ) : ∃ n, |value p - value q| = ofQuanta n := by
  wlog h : q ≤ p generalizing p q
  · rw [abs_sub_comm]
    exact this q p (by omega)
  · refine ⟨quanta p - quanta q,?_⟩
    have hle := quanta_strictMono.monotone h
    rw [abs_of_nonneg (sub_nonneg.2 (value_strictMono.monotone h)),sub_eq_iff_eq_add,value,value,
      ← ofQuanta_add,Nat.sub_add_cancel hle]

/-- A rounded magnitude is less than a unit of the last place away. It is no further from the decimal
than the pattern that is rounded, since this is a candidate for the result. -/
theorem abs_value_roundMagnitude_sub_lt {places p : ℕ} (h : 0 < places) (hp : p < infinite) :
    |value (roundMagnitude places p) - value p| < 1 / 10 ^ places := by
  have hdecimal := abs_decimal_sub_le places p
  have hnearest := (roundsTo_roundMagnitude places hp).abs_sub_le p
  rw [abs_sub_comm (value p)] at hnearest
  have htri := abs_sub_le (value (roundMagnitude places p)) (decimalUnits places p / 10 ^ places)
    (value p)
  have hhalves : (1 / 2 / 10 ^ places + 1 / 2 / 10 ^ places : ℚ) = 1 / 10 ^ places := by ring
  obtain ⟨n,hn⟩ := exists_abs_sub_eq (roundMagnitude places p) p
  apply lt_of_le_of_ne
  · linarith
  · rw [hn]
    exact ofQuanta_ne_decimal h n

/-- From 2³⁶ on neighbouring patterns are 2⁻¹⁶ or more apart. -/
theorem le_scale_of_large {p : ℕ} (h : 2 ^ 36 ≤ value p) : 1058 ≤ scale p := by
  by_contra hlt
  have hspacing : spacing p ≤ 2 ^ (-17 : ℤ) := zpow_le_zpow_right₀ (by norm_num) (by omega)
  have hsignificand : (significand p : ℚ) < 2 ^ 53 := by exact_mod_cast significand_lt p
  have hpos : 0 < spacing p := zpow_pos (by norm_num) _
  have hvalue : value p < 2 ^ 53 * 2 ^ (-17 : ℤ) := by
    rw [value_eq]
    exact mul_lt_mul hsignificand hspacing hpos (by positivity)
  norm_num at hvalue h
  linarith

/-- A multiple of 1/32 has at most five decimal places. -/
theorem roundMagnitude_of_fraction {p n : ℕ} (h : value p = n / 32) (hp : p ≤ infinite) :
    roundMagnitude 5 p = p := by
  apply roundMagnitude_of_decimal (n := n * 3125) _ hp
  rw [h]
  push_cast
  ring

end LSystem.Number
