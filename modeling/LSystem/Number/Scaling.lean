import LSystem.Number.Decimal

/-!
# Scaling by powers of ten

A decimal is evaluated in doubles: the coefficient becomes the nearest double, and this is multiplied
or divided by the double nearest to the power of ten. Each step rounds, so the result may be a neighbour
of the double that is nearest to the decimal. Up to 2⁵³ coefficients are doubles and up to 10²² powers
of ten are, and within these bounds only the last step rounds.
-/
namespace LSystem.Number

/-- The pattern nearest to a natural number. -/
def ofWhole (n : Nat) : Nat := nearest n 1

/-- The pattern nearest to the product of two magnitudes. -/
def product (p q : Nat) : Nat := nearest (quanta p * quanta q) (Nat.pow 2 2148)

/-- The pattern nearest to the quotient of two magnitudes. -/
def quotient (p q : Nat) : Nat := nearest (quanta p) (quanta q)

/-- The greatest exponent whose power of ten is finite. -/
def greatestPower : Nat := 308

def powerOfTen (n : Nat) : Nat := ofWhole (Nat.pow 10 n)

/-- A magnitude times a power of ten. Above the greatest power all but zero is infinite. -/
def scaleUp (p n : Nat) : Nat :=
  if n ≤ greatestPower then product p (powerOfTen n)
  else if p = 0 then 0
  else infinite

/-- A magnitude below 2⁶⁴ over a power of ten. Two divisions reach below all magnitudes. -/
def scaleDown (p n : Nat) : Nat :=
  if n ≤ greatestPower then quotient p (powerOfTen n)
  else if n ≤ 2 * greatestPower then
    quotient (quotient p (powerOfTen greatestPower)) (powerOfTen (n - greatestPower))
  else 0

/-- The pattern to which a decimal with a coefficient below 2⁶⁴ evaluates. -/
def Decimal.toPattern (d : Decimal) : Nat :=
  if 0 ≤ d.exponent then scaleUp (ofWhole d.coefficient) d.exponent.toNat
  else scaleDown (ofWhole d.coefficient) (-d.exponent).toNat

end LSystem.Number
