import LSystem.Proofs.Number.FixedText
import LSystem.Proofs.Number.Scaling

/-!
# Rounded doubles

Rounding a double to decimal places rounds its magnitude and keeps its sign bit, so what holds of
magnitudes holds on both sides of zero: the result is the double nearest to the nearest decimal
(`roundedTo_roundPlaces`), a second rounding to five places changes nothing (`roundPlaces_idem`),
rounding keeps the order of doubles and goes along with negation (`roundPlaces_le`, `roundPlaces_neg`),
and what is rounded to five places stays finite, near to what it was and often the same
(`staysNear_roundPlaces`).
-/
namespace LSystem.Number

/-- A number on the side of zero that the sign bit says. -/
def withSign (negative : Bool) (y : ℚ) : ℚ := if negative then -y else y

/-- The number that a finite double stands for. -/
def number (x : Float) : ℚ := withSign (isNegative x) (value (magnitude x))

theorem abs_withSign (negative : Bool) {y : ℚ} (h : 0 ≤ y) : |withSign negative y| = y := by
  cases negative
  · exact abs_of_nonneg h
  · exact (abs_neg y).trans (abs_of_nonneg h)

theorem abs_withSign_sub (negative : Bool) (x y : ℚ) :
    |withSign negative x - withSign negative y| = |x - y| := by
  cases negative
  · rfl
  · rw [withSign,withSign,if_pos rfl,if_pos rfl,neg_sub_neg,abs_sub_comm]

theorem abs_withSign_not_sub (negative : Bool) (x y : ℚ) :
    |withSign (!negative) x - withSign negative y| = |x + y| := by
  cases negative
  · change |-x - y| = _
    rw [← abs_neg,neg_sub',neg_neg,sub_neg_eq_add]
  · change |x - -y| = _
    rw [sub_neg_eq_add]

theorem abs_number (x : Float) : |number x| = value (magnitude x) :=
  abs_withSign _ (value_nonneg _)

theorem number_signed {negative : Bool} {p : ℕ} (h : p < infinite) :
    number (signed negative p) = withSign negative (value p) := by
  rw [number,isNegative_signed h.le,magnitude_signed h.le]

/-- A finite double to which no other finite double is nearer than it is. Where another number is as
near, it is the one with the even significand. From halfway between the last finite double and 2¹⁰²⁴ on
numbers have no nearest double. -/
structure NearestDouble (r : Float) (y : ℚ) : Prop where
  finite : r.isFinite = true
  nearest : ∀ s : Float, s.isFinite = true → |number r - y| ≤ |number s - y|
  even : ∀ s : Float, s.isFinite = true → number s ≠ number r →
    |number s - y| = |number r - y| → magnitude r % 2 = 0
  inRange : 2 * |y| < value (infinite - 1) + value infinite

section

variable {p : ℕ} {x : ℚ} (h : RoundsTo p x)

include h

theorem RoundsTo.nonneg : 0 ≤ x := by
  have hlow := h.low
  have hpred := value_nonneg (p - 1)
  have hp := value_nonneg p
  linarith

/-- What rounds to a finite pattern lies before the numbers that overflow. -/
theorem RoundsTo.inRange (hp : p < infinite) : 2 * x < value (infinite - 1) + value infinite := by
  have hhigh := h.high
  rcases Nat.lt_or_eq_of_le (Nat.le_sub_one_of_lt hp) with hlt | rfl
  · have hone := value_strictMono hlt
    have htwo := value_strictMono (show p + 1 < infinite by omega)
    linarith
  · rw [Nat.sub_add_cancel (by decide)] at hhigh
    apply lt_of_le_of_ne hhigh
    intro htie
    have heven := h.even (.inr (by rwa [Nat.sub_add_cancel (by decide)]))
    exact absurd heven (by decide)

/-- The double on the other side of zero is further away, unless both are zero. -/
theorem RoundsTo.number_eq_of_abs_sub_eq {s : Float} {negative : Bool} (hs : magnitude s = p)
    (heq : |number s - withSign negative x| = |value p - x|) :
    number s = withSign negative (value p) := by
  have hnumber : number s = withSign (isNegative s) (value p) := by rw [number,hs]
  rcases Nat.eq_zero_or_pos p with rfl | hp
  · rw [hnumber,value_zero]
    cases isNegative s <;> cases negative <;> simp [withSign]
  · rcases Bool.eq_or_eq_not (isNegative s) negative with hsign | hsign
    · rw [hnumber,hsign]
    · have hx := RoundsTo.pos hp h
      have hvalue := value_pos hp
      rw [hnumber,hsign,abs_withSign_not_sub,abs_of_pos (by linarith)] at heq
      rcases abs_cases (value p - x) with ⟨he,-⟩ | ⟨he,-⟩ <;> linarith

/-- The double with the pattern to which a number rounds is nearest to the number, on both sides of
zero. -/
theorem RoundsTo.nearestDouble (negative : Bool) (hp : p < infinite) :
    NearestDouble (signed negative p) (withSign negative x) := by
  have hsame : |number (signed negative p) - withSign negative x| = |value p - x| := by
    rw [number_signed hp,abs_withSign_sub]
  have hfar (s : Float) : |value (magnitude s) - x| ≤ |number s - withSign negative x| := by
    have habs := abs_abs_sub_abs_le_abs_sub (number s) (withSign negative x)
    rwa [abs_number,abs_withSign _ h.nonneg] at habs
  constructor
  case finite => rwa [isFinite_iff,magnitude_signed hp.le]
  case nearest =>
    intro s _
    rw [hsame]
    exact (h.abs_sub_le (magnitude s)).trans (hfar s)
  case even =>
    intro s _ hne heq
    rw [magnitude_signed hp.le]
    rw [hsame] at heq
    by_cases hmag : magnitude s = p
    · rw [number_signed hp] at hne
      exact absurd (h.number_eq_of_abs_sub_eq hmag heq) hne
    · exact h.even_of_abs_sub_eq hmag (le_antisymm (heq ▸ hfar s) (h.abs_sub_le _))
  case inRange =>
    rw [abs_withSign _ h.nonneg]
    exact h.inRange hp

end

section

variable (places : ℕ) {v : Float}

theorem roundPlaces_of_not_finite (h : infinite ≤ magnitude v) : roundPlaces places v = v := by
  rw [roundPlaces,isFinite,if_neg (by simpa using h)]

/-- The magnitude is rounded and the sign bit stays. -/
theorem roundPlaces_eq (h : magnitude v ≤ infinite) :
    roundPlaces places v = signed (isNegative v) (roundMagnitude places (magnitude v)) := by
  rcases Nat.lt_or_eq_of_le h with hlt | heq
  · rw [roundPlaces,isFinite,if_pos (decide_eq_true hlt)]
  · rw [roundPlaces_of_not_finite places heq.ge,heq,roundMagnitude_infinite,← heq,signed_self]

theorem isNegative_roundPlaces (h : magnitude v ≤ infinite) :
    isNegative (roundPlaces places v) = isNegative v := by
  rw [roundPlaces_eq places h,isNegative_signed (roundMagnitude_le_infinite places h)]

theorem magnitude_roundPlaces (h : magnitude v ≤ infinite) :
    magnitude (roundPlaces places v) = roundMagnitude places (magnitude v) := by
  rw [roundPlaces_eq places h,magnitude_signed (roundMagnitude_le_infinite places h)]

end

/-- What becomes of a double that is rounded to decimal places. The exact value of a finite one is
rounded to a decimal, and the result is the double nearest to the decimal. It is what is read from
the text with that many places. -/
structure RoundedTo (places : ℕ) (v r : Float) : Prop where
  nearest : v.isFinite = true → ∃ q : ℕ, NearestWhole q (|number v| * 10 ^ places) ∧
    NearestDouble r (withSign (isNegative v) (q / 10 ^ places))
  sign : v.isFinite = true → isNegative r = isNegative v
  text : readDouble? (fixedText places v) = some r
  undefined : v.isNaN = true → r.isNaN = true
  infinite : v.isInf = true → r = v

theorem roundedTo_roundPlaces (places : ℕ) (v : Float) :
    RoundedTo places v (roundPlaces places v) := by
  constructor
  case nearest =>
    intro hfin
    rw [isFinite_iff] at hfin
    refine ⟨decimalUnits places (magnitude v),?_,?_⟩
    · rw [abs_number]
      exact nearestWhole_decimalUnits places _
    · rw [roundPlaces_eq places hfin.le]
      exact (roundsTo_roundMagnitude places hfin).nearestDouble _
        (roundMagnitude_lt_infinite places hfin)
  case sign =>
    intro hfin
    rw [isFinite_iff] at hfin
    exact isNegative_roundPlaces places hfin.le
  case text => exact readDouble?_fixedText places v
  case undefined =>
    intro hnan
    rwa [roundPlaces_of_not_finite places (isNaN_iff.1 hnan).le]
  case infinite =>
    intro hinf
    exact roundPlaces_of_not_finite places (isInf_iff.1 hinf).ge

/-- A second rounding to five places changes nothing. -/
theorem roundPlaces_idem (v : Float) : roundPlaces 5 (roundPlaces 5 v) = roundPlaces 5 v := by
  rcases Nat.lt_or_ge (magnitude v) infinite with hfin | hnot
  · have hle := roundMagnitude_le_infinite 5 hfin.le
    rw [roundPlaces_eq 5 hfin.le,roundPlaces_eq 5 (by rwa [magnitude_signed hle]),
      isNegative_signed hle,magnitude_signed hle,roundMagnitude_idem hfin]
  · rw [roundPlaces_of_not_finite 5 hnot,roundPlaces_of_not_finite 5 hnot]

theorem roundMagnitude_zero (places : ℕ) : roundMagnitude places 0 = 0 :=
  roundMagnitude_of_whole places (value_zero.trans Nat.cast_zero.symm) (Nat.zero_le _)

/-- Ranks stay in order when their patterns are changed in a way that keeps zero and the order. -/
theorem rank_le_rank {f : ℕ → ℕ} (hf : Monotone f) (hzero : f 0 = 0) {m n : Bool} {p q : ℕ}
    (h : rank m p ≤ rank n q) : rank m (f p) ≤ rank n (f q) := by
  unfold rank at *
  cases m <;> cases n <;> simp only [Bool.false_eq_true,if_false,if_true] at h ⊢
  · exact_mod_cast hf (by omega)
  · obtain ⟨rfl,rfl⟩ : p = 0 ∧ q = 0 := by omega
    rw [hzero]
    rfl
  · omega
  · have hle := hf (show q ≤ p by omega)
    omega

/-- Rounding keeps the order of doubles. -/
theorem roundPlaces_le (places : ℕ) {a b : Float} (h : a ≤ b) :
    roundPlaces places a ≤ roundPlaces places b := by
  obtain ⟨ha,hb,hrank⟩ := le_iff.1 h
  rw [le_iff,isNegative_roundPlaces places ha,isNegative_roundPlaces places hb,
    magnitude_roundPlaces places ha,magnitude_roundPlaces places hb]
  exact ⟨roundMagnitude_le_infinite places ha,roundMagnitude_le_infinite places hb,
    rank_le_rank (roundMagnitude_mono places) (roundMagnitude_zero places) hrank⟩

/-- Rounding the opposite of a defined double gives the opposite. -/
theorem roundPlaces_neg (places : ℕ) {v : Float} (h : v.isNaN = false) :
    roundPlaces places (-v) = -roundPlaces places v := by
  rw [isNaN_eq_false_iff] at h
  rw [neg_eq (roundPlaces places v),isNegative_roundPlaces places h,magnitude_roundPlaces places h,
    neg_eq,roundPlaces_eq places (by rwa [magnitude_signed h]),isNegative_signed h,
    magnitude_signed h]

/-- A finite double next to another one, less than a unit of the fifth decimal place away. It is the
same double where that one is large, a multiple of 1/32 or whole. -/
structure StaysNear (v r : Float) : Prop where
  finite : r.isFinite = true
  close : |number r - number v| < 1 / 10 ^ 5
  large : 2 ^ 36 ≤ |number v| → r = v
  fraction : ∀ n : ℤ, number v = n / 32 → r = v
  whole : ∀ n : ℤ, number v = n → r = v

theorem roundPlaces_of_roundMagnitude {places : ℕ} {v : Float} (h : magnitude v ≤ infinite)
    (hp : roundMagnitude places (magnitude v) = magnitude v) : roundPlaces places v = v := by
  rw [roundPlaces_eq places h,hp,signed_self]

theorem roundPlaces_of_fraction {v : Float} {n : ℤ} (h : magnitude v ≤ infinite)
    (hn : number v = n / 32) : roundPlaces 5 v = v := by
  apply roundPlaces_of_roundMagnitude h
  apply roundMagnitude_of_fraction (n := n.natAbs) _ h
  rw [← abs_number,hn,abs_div,Nat.cast_natAbs,Int.cast_abs,Nat.abs_ofNat]

theorem staysNear_roundPlaces {v : Float} (h : v.isFinite = true) :
    StaysNear v (roundPlaces 5 v) := by
  rw [isFinite_iff] at h
  constructor
  case finite =>
    rw [isFinite_iff,magnitude_roundPlaces 5 h.le]
    exact roundMagnitude_lt_infinite 5 h
  case close =>
    rw [number,number,isNegative_roundPlaces 5 h.le,magnitude_roundPlaces 5 h.le,abs_withSign_sub]
    exact abs_value_roundMagnitude_sub_lt (by decide) h
  case large =>
    intro hlarge
    rw [abs_number] at hlarge
    exact roundPlaces_of_roundMagnitude h.le (roundMagnitude_of_large (le_scale_of_large hlarge) h.le)
  case fraction => exact fun n hn => roundPlaces_of_fraction h.le hn
  case whole =>
    intro n hn
    apply roundPlaces_of_fraction (n := 32 * n) h.le
    rw [hn]
    push_cast
    ring

end LSystem.Number
