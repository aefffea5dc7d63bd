import LSystem.Number.Places

/-!
# Points and polylines

Points of the plane with double coordinates. Equality of points is equality of their bits, with one
undefined value, so that positive and negative zero differ.
-/
namespace LSystem

structure Point where
  x : Float
  y : Float
  deriving DecidableEq, Repr, Inhabited

/-- One stroke, its points in the order in which they are drawn. -/
abbrev Polyline := List Point

namespace Point

def origin : Point := ⟨0,0⟩

/-- The point at the given multiple of a displacement. -/
def along (p d : Point) (distance : Float) : Point := ⟨p.x + d.x * distance,p.y + d.y * distance⟩

def sub (p q : Point) : Point := ⟨p.x - q.x,p.y - q.y⟩

/-- Both coordinates rounded to five decimal places. -/
def round (p : Point) : Point := ⟨Number.roundPlaces 5 p.x,Number.roundPlaces 5 p.y⟩

/-- The lesser coordinates. The left point stays out where a comparison fails, as with an undefined
coordinate or two zeros. -/
def min (p q : Point) : Point := ⟨if p.x < q.x then p.x else q.x,if p.y < q.y then p.y else q.y⟩

/-- The greater coordinates, with the same rule as `min`. -/
def max (p q : Point) : Point := ⟨if p.x > q.x then p.x else q.x,if p.y > q.y then p.y else q.y⟩

end Point

end LSystem
