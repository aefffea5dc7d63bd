import LSystem.Geometry.Drawing
import LSystem.Severity
import LSystem.Turtle.Operation
import LSystem.Turtle.Pose

/-!
# Tracing a word

The turtle reads a word from left to right and leaves polylines behind. A draw extends the open
polyline. A move or a return to a saved pose closes it, and a polyline with fewer than two points is
dropped when it is closed. Only what is emitted is rounded: the turtle itself keeps full precision,
and the first point is the start position as given.

`Canvas.apply` is one operation on the state of the drawing and fails just where no pose is saved.
`Tracing.read` is one symbol, with its place in the word and what is to be reported about it.
-/
namespace LSystem

/-- How a word is drawn. Angles are in degrees. -/
structure Settings where
  startPosition : Point
  startAngle : Float
  turnAngle : Float
  step : Float
  deriving DecidableEq, Repr

/-- From the origin along the first axis, right angles, steps of ten. -/
def Settings.standard : Settings := ⟨Point.origin,0,90,10⟩

def Settings.startPose (g : Settings) : Pose := ⟨g.startPosition,g.startAngle⟩

/-- The state of a drawing. The lists are in reverse: the last point, the last polyline and the pose
saved last stand first. -/
structure Canvas where
  pose : Pose
  saved : List Pose
  trail : List Point
  finished : List Polyline
  deriving DecidableEq, Repr

namespace Canvas

def blank (g : Settings) : Canvas := ⟨g.startPose,[],[g.startPosition],[]⟩

/-- The polylines once the open one is closed, the last first. -/
def closed (k : Canvas) : List Polyline :=
  if 1 < k.trail.length then k.trail.reverse :: k.finished else k.finished

/-- The open polyline is closed, and a new one begins at the given pose. -/
def restart (k : Canvas) (pose : Pose) : Canvas :=
  { k with pose := pose, trail := [pose.position.round], finished := k.closed }

/-- One operation. It fails where a pose is to be restored and none is saved. -/
def apply (g : Settings) (k : Canvas) : Operation → Option Canvas
  | .draw =>
    let pose := k.pose.forward g.step
    some { k with pose := pose, trail := pose.position.round :: k.trail }
  | .move => some (k.restart (k.pose.forward g.step))
  | .turnLeft => some { k with pose := k.pose.turn g.turnAngle }
  | .turnRight => some { k with pose := k.pose.turn (-g.turnAngle) }
  | .push => some { k with saved := k.pose :: k.saved }
  | .pop =>
    match k.saved with
    | [] => none
    | pose :: saved => some { k.restart pose with saved := saved }
  | .noop => some k

/-- The finished drawing in the order of completion. -/
def polylines (k : Canvas) : List Polyline := k.closed.reverse

end Canvas

/-- What is reported while a word is traced. -/
inductive TracingEvent where
  | ignoredSymbol (symbol : Symbol)
  | popWithoutSave (offset : Nat)
  | traced (byteLength polylines : Nat)
  deriving DecidableEq, Repr

namespace TracingEvent

def severity : TracingEvent → Severity
  | ignoredSymbol _ => .trace
  | popWithoutSave _ => .warning
  | traced _ _ => .debug

def message : TracingEvent → String
  | ignoredSymbol _ => "ignored symbol"
  | popWithoutSave _ => "pop with empty stack"
  | traced _ _ => "interpreted symbol string"

end TracingEvent

/-- A pose was to be restored at a byte offset of the word where none was saved. -/
structure UnbalancedPop where
  offset : Nat
  deriving DecidableEq, Repr

def UnbalancedPop.message (e : UnbalancedPop) : String :=
  "unbalanced stack: pop at symbol offset " ++ toString e.offset ++ " with no saved state"

/-- How far a word has been traced. The events are in reverse. -/
structure Tracing where
  canvas : Canvas
  offset : Nat
  events : List TracingEvent
  deriving DecidableEq, Repr

namespace Tracing

def start (g : Settings) : Tracing := ⟨Canvas.blank g,0,[]⟩

/-- The report on a symbol that has been obeyed. -/
def noted (c : Symbol) (events : List TracingEvent) : List TracingEvent :=
  if Operation.ofSymbol c = .noop then .ignoredSymbol c :: events else events

/-- One symbol. A failure comes with the events up to it, again in reverse. -/
def read (g : Settings) (t : Tracing) (c : Symbol) :
    Except (UnbalancedPop × List TracingEvent) Tracing :=
  match t.canvas.apply g (Operation.ofSymbol c) with
  | none => .error (⟨t.offset⟩,.popWithoutSave t.offset :: t.events)
  | some canvas => .ok ⟨canvas,t.offset + c.utf8Size,noted c t.events⟩

end Tracing

/-- The outcome of tracing a word and everything reported on the way. -/
structure Trace where
  outcome : Except UnbalancedPop (List Polyline)
  events : List TracingEvent

namespace Settings

/-- A word traced from the start pose to its end, or to the first pose that is not there. -/
def trace (g : Settings) (w : Word) : Trace :=
  match w.foldlM (Tracing.read g) (Tracing.start g) with
  | .error (e,events) => ⟨.error e,events.reverse⟩
  | .ok t =>
    let lines := t.canvas.polylines
    ⟨.ok lines,(.traced t.offset lines.length :: t.events).reverse⟩

/-- The polylines of a word. -/
def polylines (g : Settings) (w : Word) : Except UnbalancedPop (List Polyline) := (g.trace w).outcome

/-- The drawing of a word, with its bounds. -/
def draw (g : Settings) (w : Word) : Except UnbalancedPop Drawing :=
  (g.polylines w).map Drawing.ofPolylines

end Settings

/-- A word traced with a step, angles and a start position of its own. -/
def render (w : Word) (step startAngle turnAngle : Float) (startPosition : Point) : Trace :=
  Settings.trace ⟨startPosition,startAngle,turnAngle,step⟩ w

end LSystem
