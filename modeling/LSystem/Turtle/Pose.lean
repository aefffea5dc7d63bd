import LSystem.Geometry.Point

/-!
# The pose of the turtle

Position and heading, both unrounded. The heading is in degrees, counter-clockwise from the first
axis, and is never reduced modulo a full turn.
-/
namespace LSystem

structure Pose where
  position : Point
  heading : Float
  deriving DecidableEq, Repr

namespace Pose

/-- The double nearest to π/180. -/
def radiansPerDegree : Float := Float.ofBits 0x3f91df46a2529d39

/-- The unit vector of the heading. -/
def direction (t : Pose) : Point :=
  ⟨(t.heading * radiansPerDegree).cos,(t.heading * radiansPerDegree).sin⟩

def forward (t : Pose) (distance : Float) : Pose :=
  { t with position := t.position.along t.direction distance }

/-- A turn by the given angle, counter-clockwise where it is positive. -/
def turn (t : Pose) (angle : Float) : Pose := { t with heading := t.heading + angle }

end Pose

end LSystem
