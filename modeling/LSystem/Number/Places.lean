import LSystem.Number.Magnitude

/-!
# Rounding to decimal places

The exact value of a double is rounded to a decimal with a set number of places, and the double
nearest to that decimal is the result. Both steps are exact divisions, so no error of an intermediate
product can move a value over a half: 0.123455 is stored a little below its text and goes down.
-/
namespace LSystem.Number

/-- The pattern nearest to the given magnitude rounded to `places` decimal places. -/
def roundMagnitude (places pattern : Nat) : Nat :=
  nearest (roundDiv (quanta pattern * Nat.pow 10 places) (Nat.pow 2 1074)) (Nat.pow 10 places)

/-- A double rounded to `places` decimal places. The sign stays, also on zero, and what is not finite
is left as it is. -/
def roundPlaces (places : Nat) (x : Float) : Float :=
  if isFinite x then signed (isNegative x) (roundMagnitude places (magnitude x)) else x

end LSystem.Number
