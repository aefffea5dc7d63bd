import LSystem.Geometry.Point

/-!
# Bounds and drawings

The bounds of a list of polylines are the least and greatest coordinates over all their points. A
drawing keeps polylines together with bounds. Those of `Drawing.ofPolylines` are computed; a drawing
that is read from a text keeps the bounds of the text.
-/
namespace LSystem

/-- Two opposite corners of a box along the axes. -/
structure Bounds where
  min : Point
  max : Point
  deriving DecidableEq, Repr

namespace Bounds

def ofPoint (p : Point) : Bounds := ⟨p,p⟩

/-- The bounds extended to one more point. -/
def extend (b : Bounds) (p : Point) : Bounds := ⟨b.min.min p,b.max.max p⟩

/-- The bounds of a list of points, which exist when there is a point. -/
def ofPoints? : List Point → Option Bounds
  | [] => none
  | p :: rest => some (rest.foldl extend (ofPoint p))

def ofPolylines? (polylines : List Polyline) : Option Bounds := ofPoints? polylines.flatten

def width (b : Bounds) : Float := b.max.x - b.min.x

def height (b : Bounds) : Float := b.max.y - b.min.y

def size (b : Bounds) : Point := b.max.sub b.min

theorem ofPoints?_eq_none_iff (points : List Point) : ofPoints? points = none ↔ points = [] := by
  cases points <;> simp [ofPoints?]

end Bounds

/-- Polylines in the order of their completion, with bounds. -/
structure Drawing where
  polylines : List Polyline
  bounds : Option Bounds
  deriving DecidableEq, Repr

namespace Drawing

def ofPolylines (polylines : List Polyline) : Drawing := ⟨polylines,Bounds.ofPolylines? polylines⟩

/-- A drawing without polylines. One that has only empty polylines is not empty. -/
def isEmpty (d : Drawing) : Bool := d.polylines.isEmpty

/-- The number of points over all polylines. -/
def pointCount (d : Drawing) : Nat := d.polylines.flatten.length

end Drawing

end LSystem
