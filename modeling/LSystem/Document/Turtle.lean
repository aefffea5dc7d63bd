import LSystem.Document.Geometry
import LSystem.Turtle.Tracing

/-!
# Documents of the turtle

A pose is a record that needs both its fields, settings are a record in which every field may be
missing and then has its standard value, and an operation is its name, alone or as the key of an object
whose only value is `null`.
-/
namespace LSystem

open Json

namespace Pose

structure Draft where
  position : Option Point
  heading : Option Float

def fields : List (Json.Field Draft) :=
  [⟨"position".toList,fun d => d.position.isSome,
      Point.reader.map fun v d => { d with position := some v }⟩,
    ⟨"heading".toList,fun d => d.heading.isSome,
      Reader.number.map fun v d => { d with heading := some v }⟩]

def shape : Expected := .record "TurtleState" 2

def build (form : Form) (d : Draft) : Except Fault Pose := do
  let position ← form.require shape 0 "position".toList d.position
  let heading ← form.require shape 1 "heading".toList d.heading
  return ⟨position,heading⟩

def record : Record Draft Pose := ⟨shape,fields,⟨none,none⟩,build⟩

def reader : Reader Pose := record.reader

def tokens (t : Pose) : List Token :=
  objectTokens [memberTokens "position".toList t.position.tokens,
    memberTokens "heading".toList [Token.ofFloat t.heading]]

end Pose

namespace Settings

structure Draft where
  startPosition : Option Point
  startAngle : Option Float
  turnAngle : Option Float
  step : Option Float

def fields : List (Json.Field Draft) :=
  [⟨"start_position".toList,fun d => d.startPosition.isSome,
      Point.reader.map fun v d => { d with startPosition := some v }⟩,
    ⟨"start_angle".toList,fun d => d.startAngle.isSome,
      Reader.number.map fun v d => { d with startAngle := some v }⟩,
    ⟨"turn_angle".toList,fun d => d.turnAngle.isSome,
      Reader.number.map fun v d => { d with turnAngle := some v }⟩,
    ⟨"step".toList,fun d => d.step.isSome,Reader.number.map fun v d => { d with step := some v }⟩]

/-- What is missing has its standard value, in either form. -/
def complete (d : Draft) : Settings where
  startPosition := d.startPosition.getD standard.startPosition
  startAngle := d.startAngle.getD standard.startAngle
  turnAngle := d.turnAngle.getD standard.turnAngle
  step := d.step.getD standard.step

def record : Record Draft Settings :=
  ⟨.record "TurtleConfig" 4,fields,⟨none,none,none,none⟩,fun _ d => .ok (complete d)⟩

def reader : Reader Settings := record.reader

def tokens (g : Settings) : List Token :=
  objectTokens [memberTokens "start_position".toList g.startPosition.tokens,
    memberTokens "start_angle".toList [Token.ofFloat g.startAngle],
    memberTokens "turn_angle".toList [Token.ofFloat g.turnAngle],
    memberTokens "step".toList [Token.ofFloat g.step]]

end Settings

namespace Operation

/-- The operation of the given name. -/
def named (name : List Char) : Except Fault Operation :=
  match ofName? (String.ofList name) with
  | some o => .ok o
  | none => .error (.unknownVariant name (all.map Operation.name))

/-- The name of an operation as a token. -/
def ofCodes (codes : List Nat) : Except Fault Operation :=
  match StringBody.scalars? codes with
  | some name => named name
  | none => .error .malformed

/-- The colon, the `null` and the closing brace after a name that is a key. -/
def closed (o : Operation) : List Token → Except Fault (Operation × List Token)
  | .colon :: .null :: .closeBrace :: rest => .ok (o,rest)
  | .colon :: .null :: _ => .error .malformed
  | .colon :: t :: _ => .error (t.unlike .unit)
  | _ => .error .malformed

theorem closed_length {o p : Operation} {input rest : List Token}
    (h : closed o input = .ok (p,rest)) : rest.length < input.length := by
  unfold closed at h
  split at h
  · simp only [Except.ok.injEq,Prod.mk.injEq] at h
    rw [h.2]; simp only [List.length_cons]; omega
  all_goals exact absurd h (by simp)

/-- An operation by its name, alone or as the key of an object. A key that is no string has a fault that
is left open here: some readers of JSON describe it as a value of the wrong type, and some do not
describe it. -/
def readerWith (keyFault : Token → Fault) : Reader Operation where
  run
    | .string codes :: rest => (ofCodes codes).map fun o => (o,rest)
    | .openBrace :: .string codes :: input =>
      match ofCodes codes with
      | .error f => .error f
      | .ok o => closed o input
    | .openBrace :: t :: _ => .error (keyFault t)
    | _ => .error .malformed
  consumes {input} {value} {rest} h := by
    split at h
    · next codes tail =>
      cases ho : ofCodes codes with
      | error f => rw [ho] at h; exact absurd h (by simp [Except.map])
      | ok o =>
        rw [ho] at h
        simp only [Except.map,Except.ok.injEq,Prod.mk.injEq] at h
        rw [h.2]; exact Nat.lt_succ_self _
    · split at h
      · exact absurd h (by simp)
      · have := closed_length h
        simp only [List.length_cons]; omega
    · exact absurd h (by simp)
    · exact absurd h (by simp)

/-- A key that is no string is malformed, as it is in every other object. -/
def reader : Reader Operation := readerWith fun _ => .malformed

/-- A key that is no string is described by what it is and what was expected. -/
def describingReader : Reader Operation := readerWith fun t => t.unlike .identifier

def tokens (o : Operation) : List Token := [Token.ofText o.name.toList]

end Operation

end LSystem
