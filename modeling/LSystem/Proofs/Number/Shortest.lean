import LSystem.Proofs.Number.Rounding

/-!
# Shortest decimals

The decimal that is found for a magnitude rounds to it, and its coefficient fits a word of 64 bits
(`roundsTo_shortest`, `coefficient_shortest_lt`). A grid whose steps are small beside the magnitude
has a point that rounds to it, so the search ends long before its tries are used up, and the grid on
which it ends is not so fine that a coefficient could be large.
-/
namespace LSystem.Number

/-- The number that a decimal stands for. -/
def Decimal.value (d : Decimal) : ℚ := d.coefficient * 10 ^ d.exponent

theorem ten_zpow (e : ℤ) : (10 : ℚ) ^ e = Nat.pow 10 e.toNat / Nat.pow 10 (-e).toNat := by
  simp only [Nat.pow_eq,Nat.cast_pow,Nat.cast_ofNat]
  rcases Int.le_total 0 e with h | h
  · obtain ⟨n,rfl⟩ := Int.eq_ofNat_of_zero_le h
    simp
  · obtain ⟨n,hn⟩ := Int.eq_ofNat_of_zero_le (Int.neg_nonneg.2 h)
    obtain rfl : e = -n := by omega
    simp

theorem ten_zpow_pos (e : ℤ) : (0 : ℚ) < 10 ^ e := zpow_pos (by norm_num) e

theorem ten_pow_pos (n : ℕ) : 0 < Nat.pow 10 n := Nat.pow_pos (by decide)

theorem half_quanta : Nat.pow 2 1075 = 2 * unit := by
  unfold unit
  generalize hm : 1075 = m
  generalize hn : 1074 = n
  rw [show m = n + 1 by omega]
  exact Nat.pow_succ'

theorem ofQuanta_grid (n : ℕ) (e : ℤ) :
    ofQuanta (n * (unit * Nat.pow 10 e.toNat)) / Nat.pow 10 (-e).toNat = n * 10 ^ e := by
  rw [ofQuanta,ten_zpow,Nat.cast_mul,Nat.cast_mul,mul_left_comm,
    mul_div_cancel_left₀ _ unit_pos.ne',mul_div_assoc]

/-- The number of whole steps of a grid below a magnitude. -/
def below (p : ℕ) (e : ℤ) : ℕ :=
  2 * quanta p * Nat.pow 10 (-e).toNat / (Nat.pow 2 1075 * Nat.pow 10 e.toNat)

theorem below_eq (p : ℕ) (e : ℤ) :
    below p e = quanta p * Nat.pow 10 (-e).toNat / (unit * Nat.pow 10 e.toNat) := by
  rw [below,half_quanta,Nat.mul_assoc,Nat.mul_assoc,Nat.mul_div_mul_left _ _ Nat.two_pos]

theorem below_le (p : ℕ) (e : ℤ) : below p e * 10 ^ e ≤ value p := by
  rw [← ofQuanta_grid,value,ofQuanta_div_le_iff (ten_pow_pos _),below_eq]
  exact Nat.div_mul_le_self _ _

theorem lt_below (p : ℕ) (e : ℤ) : value p < (below p e + 1 : ℕ) * 10 ^ e := by
  rw [← ofQuanta_grid,value,← not_le,ofQuanta_div_le_iff (ten_pow_pos _),not_le,below_eq]
  apply Nat.lt_mul_of_div_lt (Nat.lt_succ_self _)
  exact Nat.mul_pos (Nat.cast_pos.1 unit_pos) (ten_pow_pos _)

theorem roundsTo_grid {p n : ℕ} {e : ℤ} :
    roundsTo p (n * (Nat.pow 2 1075 * Nat.pow 10 e.toNat)) (Nat.pow 10 (-e).toNat) = true ↔
      RoundsTo p (n * 10 ^ e) := by
  rw [half_quanta,Nat.mul_assoc 2,Nat.mul_left_comm n 2,roundsTo_eq_true_iff (ten_pow_pos _),
    ofQuanta_grid]

theorem gridPoint?_some {p n : ℕ} {e : ℤ} (h : gridPoint? p e = some n) :
    RoundsTo p (n * 10 ^ e) ∧ n ≤ below p e + 1 := by
  unfold gridPoint? at h
  simp only at h
  split at h
  · next hlow hhigh =>
    obtain rfl := Option.some.inj h
    rcases roundDiv_eq_or (2 * quanta p * Nat.pow 10 (-e).toNat)
      (Nat.pow 2 1075 * Nat.pow 10 e.toNat) with he | he
    · rw [he]
      exact ⟨roundsTo_grid.1 hlow,Nat.le_succ _⟩
    · rw [he]
      exact ⟨roundsTo_grid.1 hhigh,Nat.le_refl _⟩
  · next hlow _ =>
    obtain rfl := Option.some.inj h
    exact ⟨roundsTo_grid.1 hlow,Nat.le_succ _⟩
  · next _ hhigh =>
    obtain rfl := Option.some.inj h
    exact ⟨roundsTo_grid.1 hhigh,Nat.le_refl _⟩
  · exact absurd h (by simp)

theorem gridPoint?_none {p : ℕ} {e : ℤ} (h : gridPoint? p e = none) :
    ¬RoundsTo p (below p e * 10 ^ e) := by
  intro hr
  have hlow := roundsTo_grid.2 hr
  rw [half_quanta] at hlow
  unfold gridPoint? at h
  rw [half_quanta] at h
  simp only at h
  split at h
  · exact absurd h (by simp)
  · exact absurd h (by simp)
  · exact absurd h (by simp)
  · next hfalse _ =>
    rw [below,half_quanta,hfalse] at hlow
    exact absurd hlow (by simp)

/-- A number less than half a unit below a magnitude rounds to it. -/
theorem roundsTo_of_close {p : ℕ} {x : ℚ} (hle : x ≤ value p)
    (hclose : value (p - 1) + value p < 2 * x) : RoundsTo p x := by
  have hup := value_strictMono (Nat.lt_succ_self p)
  refine ⟨hclose.le,by linarith,fun h => ?_⟩
  rcases h with h | h <;> linarith

/-- A magnitude is less than 2⁵⁴ half units of the pattern before it. -/
theorem value_le_half_units {p : ℕ} (hp : 0 < p) : value p ≤ 2 ^ 53 * (value p - value (p - 1)) := by
  have hq := quanta_pred hp
  have hlt := significand_lt (p - 1)
  have hnat : quanta p + 2 ^ 53 * quanta (p - 1) ≤ 2 ^ 53 * quanta p := by
    have hpos := Nat.mul_le_mul_right (2 ^ scale (p - 1)) (Nat.succ_le_of_lt hlt)
    rw [Nat.succ_mul,← quanta_eq] at hpos
    omega
  have hvalue := ofQuanta_strictMono.monotone hnat
  rw [ofQuanta_add,ofQuanta_mul,ofQuanta_mul] at hvalue
  push_cast at hvalue
  unfold value
  linarith

/-- A grid without a point that rounds to the magnitude is coarse beside it. -/
theorem value_lt_of_gridPoint? {p : ℕ} {e : ℤ} (hp : 0 < p) (h : gridPoint? p e = none) :
    value p < 2 ^ 54 * 10 ^ e := by
  by_contra hge
  have hunit := value_le_half_units hp
  have hlt := lt_below p e
  push_cast at hlt
  apply gridPoint?_none h
  apply roundsTo_of_close (below_le p e)
  linarith

/-- A search that begins on a grid not too fine and may go on to one that is fine enough finds a
decimal. -/
theorem shortestFrom_spec {p tries : ℕ} {e : ℤ} (hp : 0 < p)
    (hcoarse : value p < 2 ^ 54 * 10 ^ (e + 1)) (hfine : 2 ^ 54 * 10 ^ (e + 1 - tries) ≤ value p) :
    ∃ d, shortestFrom p tries e = some d ∧ RoundsTo p d.value ∧ d.coefficient ≤ 10 * 2 ^ 54 := by
  induction tries generalizing e with
  | zero =>
    rw [Nat.cast_zero,Int.sub_zero] at hfine
    exact absurd hcoarse (not_lt_of_ge hfine)
  | succ tries ih =>
    unfold shortestFrom
    cases h : gridPoint? p e with
    | none =>
      apply ih
      · rw [Int.sub_add_cancel]
        exact value_lt_of_gridPoint? hp h
      · rwa [Int.sub_add_cancel,← Int.add_sub_add_right e 1 tries,← Nat.cast_succ]
    | some n =>
      obtain ⟨hr,hn⟩ := gridPoint?_some h
      refine ⟨⟨n,e⟩,rfl,hr,Nat.le_trans hn ?_⟩
      have hle := (below_le p e).trans_lt hcoarse
      rw [zpow_add_one₀ (by norm_num),mul_comm (10 ^ e : ℚ),← mul_assoc] at hle
      have hlt := lt_of_mul_lt_mul_right hle (ten_zpow_pos e).le
      have hnat : below p e < 2 ^ 54 * 10 := by exact_mod_cast hlt
      omega

section

variable {m n : ℕ} (hm : m ≠ 0) (hlow : (2 : ℚ) ^ m ≤ 10 ^ n) (hhigh : (10 : ℚ) ^ n ≤ 2 ^ (m + 1))

include hlow hhigh

/-- An approximation of the logarithm between two powers is one for the powers of these, as long as
the exponent is not large. -/
theorem two_zpow_mul_le {a : ℤ} (ha : -m ≤ a) : (2 : ℚ) ^ (m * (a - 1)) ≤ 10 ^ (n * a) := by
  rcases Int.le_total 0 a with h | h
  · obtain ⟨b,rfl⟩ := Int.eq_ofNat_of_zero_le h
    calc (2 : ℚ) ^ (m * ((b : ℤ) - 1)) ≤ 2 ^ (m * (b : ℤ)) :=
          zpow_le_zpow_right₀ (by norm_num) (by nlinarith)
      _ = (2 ^ m) ^ b := by rw [← Nat.cast_mul,zpow_natCast,pow_mul]
      _ ≤ (10 ^ n) ^ b := pow_le_pow_left₀ (by positivity) hlow b
      _ = 10 ^ (n * (b : ℤ)) := by rw [← Nat.cast_mul,zpow_natCast,pow_mul]
  · obtain ⟨b,hb⟩ := Int.eq_ofNat_of_zero_le (Int.neg_nonneg.2 h)
    obtain rfl : a = -b := by omega
    calc (2 : ℚ) ^ (m * (-(b : ℤ) - 1)) ≤ 2 ^ (-((m + 1) * b : ℤ)) :=
          zpow_le_zpow_right₀ (by norm_num) (by nlinarith)
      _ = ((2 ^ (m + 1)) ^ b)⁻¹ := by
          rw [zpow_neg,← Nat.cast_succ,← Nat.cast_mul,zpow_natCast,pow_mul]
      _ ≤ ((10 ^ n) ^ b)⁻¹ :=
          inv_anti₀ (by positivity) (pow_le_pow_left₀ (by positivity) hhigh b)
      _ = 10 ^ (n * -(b : ℤ)) := by
          rw [Int.mul_neg,zpow_neg,← Nat.cast_mul,zpow_natCast,pow_mul]

theorem ten_zpow_mul_le {a : ℤ} (ha : a ≤ m) : (10 : ℚ) ^ (n * a) ≤ 2 ^ (m * (a + 1)) := by
  have h := inv_anti₀ (zpow_pos (by norm_num) _)
    (two_zpow_mul_le hlow hhigh (a := -a) (by omega))
  rwa [← zpow_neg,← zpow_neg,Int.mul_neg,Int.neg_neg,← Int.mul_neg,Int.neg_sub,Int.sub_neg,
    Int.add_comm] at h

include hm

theorem two_zpow_le_ten_zpow {a k : ℤ} (ha : -m ≤ a) (hk : n * a ≤ m * k) :
    (2 : ℚ) ^ (a - 1) ≤ 10 ^ k := by
  have h := (two_zpow_mul_le hlow hhigh ha).trans (zpow_le_zpow_right₀ (by norm_num) hk)
  rw [Int.mul_comm,zpow_mul,Int.mul_comm,zpow_mul,zpow_natCast,zpow_natCast] at h
  exact (pow_le_pow_iff_left₀ (zpow_pos (by norm_num) _).le (ten_zpow_pos k).le hm).1 h

theorem ten_zpow_le_two_zpow {a k : ℤ} (ha : a ≤ m) (hk : m * k ≤ n * a) :
    (10 : ℚ) ^ k ≤ 2 ^ (a + 1) := by
  have h := (zpow_le_zpow_right₀ (by norm_num) hk).trans (ten_zpow_mul_le hlow hhigh ha)
  rw [Int.mul_comm,zpow_mul,Int.mul_comm,zpow_mul,zpow_natCast,zpow_natCast] at h
  exact (pow_le_pow_iff_left₀ (ten_zpow_pos k).le (zpow_pos (by norm_num) _).le hm).1 h

end

theorem cast_pow_le {a b m n : ℕ} (h : Nat.pow a m ≤ Nat.pow b n) : (a : ℚ) ^ m ≤ (b : ℚ) ^ n := by
  rw [← Nat.cast_pow,← Nat.cast_pow]
  exact Nat.cast_le.2 h

/-- The quotient of `coarsest` is the logarithm of two from above. -/
theorem log_two_low : (2 : ℚ) ^ 100000 ≤ 10 ^ 30103 := cast_pow_le (by decide +kernel)

theorem log_two_high : (10 : ℚ) ^ 30103 ≤ 2 ^ (100000 + 1) := cast_pow_le (by decide +kernel)

theorem log2_quanta_lt {p : ℕ} (hp : p < infinite) : (quanta p).log2 < 2098 := by
  rcases Nat.eq_zero_or_pos (quanta p) with h | h
  · rw [h]
    decide
  · rw [Nat.log2_lt h.ne']
    have hscale : scale p ≤ 2045 := by
      simp only [scale,infinite,Nat.pow_eq] at *
      omega
    calc quanta p < 2 ^ 53 * 2 ^ scale p :=
          Nat.mul_lt_mul_of_pos_right (significand_lt p) (Nat.two_pow_pos _)
      _ = 2 ^ (53 + scale p) := (Nat.pow_add 2 53 _).symm
      _ ≤ 2 ^ 2098 := Nat.pow_le_pow_right (by decide) (by omega)

theorem unit_eq : (unit : ℚ) = 2 ^ (1074 : ℤ) := by
  have h : (1074 : ℤ) = (1074 : ℕ) := rfl
  rw [h,zpow_natCast]
  unfold unit
  generalize 1074 = n
  exact Nat.cast_pow 2 n

theorem two_zpow_le_value {p : ℕ} (hp : 0 < p) :
    2 ^ (((quanta p).log2 : ℤ) - 1074) ≤ value p := by
  have hle : (2 : ℚ) ^ (quanta p).log2 ≤ quanta p := by
    exact_mod_cast Nat.log2_self_le (quanta_pos hp).ne'
  rw [zpow_sub₀ (by norm_num),← unit_eq,zpow_natCast]
  exact div_le_div_of_nonneg_right hle unit_pos.le

theorem value_lt_two_zpow (p : ℕ) : value p < 2 ^ (((quanta p).log2 + 1 : ℕ) - 1074 : ℤ) := by
  have hlt : (quanta p : ℚ) < 2 ^ ((quanta p).log2 + 1) := by exact_mod_cast Nat.lt_log2_self
  rw [zpow_sub₀ (by norm_num),← unit_eq,zpow_natCast]
  exact div_lt_div_of_pos_right hlt unit_pos

theorem shortest_spec {p : ℕ} (hp : 0 < p) (hfin : p < infinite) :
    RoundsTo p (shortest p).value ∧ (shortest p).coefficient ≤ 10 * 2 ^ 54 := by
  have hlog := log2_quanta_lt hfin
  have hhigh := value_lt_two_zpow p
  have hlow := two_zpow_le_value hp
  generalize ha : ((quanta p).log2 : ℤ) - 1073 = a
  rw [show (((quanta p).log2 + 1 : ℕ) - 1074 : ℤ) = a by omega] at hhigh
  rw [show ((quanta p).log2 : ℤ) - 1074 = a - 1 by omega] at hlow
  generalize hk : a * 30103 / 100000 = k
  have hcoarsest : coarsest p = k + 2 := by rw [coarsest,ha,hk]
  have htwo : (2 : ℚ) ^ a = 2 * 2 ^ (a - 1) := by
    rw [← zpow_one_add₀ (by norm_num),add_sub_cancel]
  have hcoarse : value p < 2 ^ 54 * 10 ^ (coarsest p + 1) := by
    have hlog := two_zpow_le_ten_zpow (by decide) log_two_low log_two_high
      (a := a) (k := k + 1) (by omega) (by omega)
    have hten : (10 : ℚ) ^ (coarsest p + 1) = 10 ^ (k + 1) * 100 := by
      rw [hcoarsest,add_right_comm,zpow_add₀ (by norm_num) (k + 1)]
      norm_num
    linarith [ten_zpow_pos (k + 1)]
  have hfine : 2 ^ 54 * 10 ^ (coarsest p + 1 - (22 : ℕ)) ≤ value p := by
    have hlog := ten_zpow_le_two_zpow (by decide) log_two_low log_two_high
      (a := a) (k := k) (by omega) (by omega)
    have hten : (10 : ℚ) ^ (coarsest p + 1 - (22 : ℕ)) = 10 ^ k / 10 ^ 19 := by
      rw [hcoarsest,show k + 2 + 1 - (22 : ℕ) = k - 19 by omega,zpow_sub₀ (by norm_num)]
      norm_num
    rw [zpow_add_one₀ (by norm_num),htwo] at hlog
    rw [hten]
    linarith [ten_zpow_pos k]
  obtain ⟨d,hd,hr,hc⟩ := shortestFrom_spec hp hcoarse hfine
  rw [shortest,if_neg hp.ne',hd,Option.getD_some]
  exact ⟨hr,hc⟩

theorem roundsTo_shortest {p : ℕ} (hfin : p < infinite) : RoundsTo p (shortest p).value := by
  rcases Nat.eq_zero_or_pos p with rfl | hp
  · have hzero := roundsTo_value 0
    rw [value_zero] at hzero
    simpa [shortest,Decimal.value] using hzero
  · exact (shortest_spec hp hfin).1

theorem coefficient_shortest_lt {p : ℕ} (hfin : p < infinite) :
    (shortest p).coefficient < Nat.pow 2 64 := by
  rcases Nat.eq_zero_or_pos p with rfl | hp
  · decide
  · exact Nat.lt_of_le_of_lt (shortest_spec hp hfin).2 (by decide)

end LSystem.Number
