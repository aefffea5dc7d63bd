import LSystem.Number.Magnitude

/-!
# Decimals and shortest decimals

A decimal is a coefficient with a power of ten. `shortest` takes, of the decimals that are nearer to a
given magnitude than to any other, one with the fewest digits, and of those the nearest, a tie going to
the even coefficient.

On the grid of multiples of a power of ten only the two neighbours of the magnitude matter: if any
point of the grid rounds to the magnitude, one of them does. So the grids are tried from the coarsest
on, and the first one with a point that rounds to it gives the fewest digits.
-/
namespace LSystem.Number

/-- The number `coefficient · 10 ^ exponent`. -/
structure Decimal where
  coefficient : Nat
  exponent : Int
  deriving DecidableEq, Repr

/-- Is the magnitude of the pattern the nearest to a number of `num / den` half quanta? The ends of the
interval of these numbers belong to it where the pattern is even. -/
def roundsTo (pattern num den : Nat) : Bool :=
  let low := quanta (pattern - 1) + quanta pattern
  let high := quanta pattern + quanta (pattern + 1)
  if pattern % 2 = 0 then low * den ≤ num ∧ num ≤ high * den
  else low * den < num ∧ num < high * den

/-- The coefficient on the grid of multiples of `10 ^ exponent` that rounds to the magnitude and is
nearest to it, if the grid has one. -/
def gridPoint? (pattern : Nat) (exponent : Int) : Option Nat :=
  let up := Nat.pow 10 (-exponent).toNat
  let step := Nat.pow 2 1075 * Nat.pow 10 exponent.toNat
  let value := 2 * quanta pattern * up
  let below := value / step
  match roundsTo pattern (below * step) up, roundsTo pattern ((below + 1) * step) up with
  | true, true => some (roundDiv value step)
  | true, false => some below
  | false, true => some (below + 1)
  | false, false => none

/-- An exponent above the leading decimal digit of a magnitude that is not zero. -/
def coarsest (pattern : Nat) : Int :=
  (((quanta pattern).log2 : Int) - 1073) * 30103 / 100000 + 2

/-- The grids from the given exponent down, at most `tries` of them. -/
def shortestFrom (pattern : Nat) : (tries : Nat) → (exponent : Int) → Option Decimal
  | 0, _ => none
  | tries + 1, exponent =>
    match gridPoint? pattern exponent with
    | some n => some ⟨n,exponent⟩
    | none => shortestFrom pattern tries (exponent - 1)

/-- The decimal with the fewest digits that rounds to a finite magnitude, and the nearest of these.
Seventeen digits always suffice; the exact expansion that stands last is a decimal too. -/
def shortest (pattern : Nat) : Decimal :=
  if pattern = 0 then ⟨0,0⟩
  else (shortestFrom pattern 22 (coarsest pattern)).getD ⟨quanta pattern * Nat.pow 5 1074,-1074⟩

end LSystem.Number
