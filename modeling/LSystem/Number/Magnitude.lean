import LSystem.Number.Quotient

/-!
# Magnitudes of doubles

A double is a sign bit above a pattern of 63 bits. Patterns below `infinite` stand for the finite
magnitudes, `infinite` stands for infinity and the patterns above it for no number. Each finite
magnitude is a whole number of quanta of 2⁻¹⁰⁷⁴; `quanta` counts them, so that exact comparison and
rounding are arithmetic of natural numbers.

Read as natural numbers the patterns are in the order of their magnitudes, and they are even just
where the significand is. `nearest` uses both: it rounds the significand, and a carry out of it lands
on the next scale by itself.
-/
namespace LSystem.Number

/-- The pattern of infinity, above those of all finite magnitudes. -/
def infinite : Nat := 2047 * Nat.pow 2 52

/-- The power of two by which the significand of a pattern counts quanta. -/
def scale (pattern : Nat) : Nat := pattern / Nat.pow 2 52 - 1

/-- The significand, with its leading bit where the pattern leaves that out. -/
def significand (pattern : Nat) : Nat := pattern - scale pattern * Nat.pow 2 52

/-- The magnitude of a pattern as a number of quanta of 2⁻¹⁰⁷⁴. -/
def quanta (pattern : Nat) : Nat := significand pattern * Nat.pow 2 (scale pattern)

/-- The pattern of the magnitude nearest to `num / den`. A half goes to the even pattern, and what
rounds to 2¹⁰²⁴ or more is infinite. -/
def nearest (num den : Nat) : Nat :=
  let shift := (num * Nat.pow 2 1074 / den).log2 - 52
  min (shift * Nat.pow 2 52 + roundDiv (num * Nat.pow 2 1074) (den * Nat.pow 2 shift)) infinite

/-- The sign bit, set on negative numbers and on negative zero. -/
def isNegative (x : Float) : Bool := Nat.pow 2 63 ≤ x.toBits.toNat

/-- The pattern below the sign bit. -/
def magnitude (x : Float) : Nat := x.toBits.toNat % Nat.pow 2 63

/-- Neither infinite nor undefined. -/
def isFinite (x : Float) : Bool := magnitude x < infinite

/-- The double with the given sign bit and pattern. -/
def signed (negative : Bool) (pattern : Nat) : Float :=
  Float.ofBits (UInt64.ofNat (if negative then Nat.pow 2 63 + pattern else pattern))

theorem scale_of_lt {p : Nat} (h : p < Nat.pow 2 53) : scale p = 0 := by
  simp only [scale,Nat.pow_eq] at *
  omega

/-- Up to 2⁵³ quanta a pattern is its own magnitude. -/
theorem quanta_of_lt {p : Nat} (h : p < Nat.pow 2 53) : quanta p = p := by
  simp only [quanta,significand,scale_of_lt h,Nat.zero_mul,Nat.sub_zero,Nat.pow_eq,Nat.pow_zero,
    Nat.mul_one]

/-- A significand below the carry is found again in the pattern built from it. -/
theorem quanta_pattern {shift m : Nat} (hm : m < Nat.pow 2 53) (hs : shift = 0 ∨ Nat.pow 2 52 ≤ m) :
    quanta (shift * Nat.pow 2 52 + m) = m * Nat.pow 2 shift := by
  have e : scale (shift * Nat.pow 2 52 + m) = shift := by
    simp only [scale,Nat.pow_eq] at *
    omega
  rw [quanta,significand,e,Nat.add_sub_cancel_left]

end LSystem.Number
