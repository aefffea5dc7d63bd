import LSystem.Geometry.Drawing
import LSystem.Json.Record
import LSystem.Json.Writing

/-!
# Documents of points and drawings

A point is an array of its two coordinates, a box is a record of two points, and a drawing is a record
of its polylines and its bounds. The bounds of a drawing may be `null`; in an object they may also be
left out.

Writing uses the keyed form with the fields in declared order.
-/
namespace LSystem

open Json

namespace Point

/-- The coordinates that have been read. -/
structure Draft where
  x : Option Float
  y : Option Float

def build (d : Draft) : Except Fault Point := do
  let x ← Form.positional.require .pair 0 [] d.x
  let y ← Form.positional.require .pair 1 [] d.y
  return ⟨x,y⟩

def reader : Reader Point :=
  (Reader.tuple .pair
    [Reader.number.map fun v d => { d with x := some v },
      Reader.number.map fun v d => { d with y := some v }] ⟨none,none⟩).check build

def tokens (p : Point) : List Token := arrayTokens [[Token.ofFloat p.x],[Token.ofFloat p.y]]

end Point

def Polyline.reader : Reader Polyline := Reader.array Point.reader

def Polyline.tokens (l : Polyline) : List Token := arrayTokens (l.map Point.tokens)

namespace Bounds

structure Draft where
  min : Option Point
  max : Option Point

def fields : List (Json.Field Draft) :=
  [⟨"min".toList,fun d => d.min.isSome,Point.reader.map fun v d => { d with min := some v }⟩,
    ⟨"max".toList,fun d => d.max.isSome,Point.reader.map fun v d => { d with max := some v }⟩]

def shape : Expected := .record "Bounds" 2

def build (form : Form) (d : Draft) : Except Fault Bounds := do
  let min ← form.require shape 0 "min".toList d.min
  let max ← form.require shape 1 "max".toList d.max
  return ⟨min,max⟩

def record : Record Draft Bounds := ⟨shape,fields,⟨none,none⟩,build⟩

def reader : Reader Bounds := record.reader

def tokens (b : Bounds) : List Token :=
  objectTokens [memberTokens "min".toList b.min.tokens,memberTokens "max".toList b.max.tokens]

/-- Bounds, or `null` where there are none. -/
def optionReader : Reader (Option Bounds) where
  run
    | .null :: rest => .ok (none,rest)
    | input => (reader.map some).run input
  consumes {input} {value} {rest} h := by
    split at h
    · simp only [Except.ok.injEq,Prod.mk.injEq] at h
      rw [h.2]; exact Nat.lt_succ_self _
    · exact Reader.consumes _ h

def optionTokens : Option Bounds → List Token
  | none => [.null]
  | some b => b.tokens

end Bounds

namespace Drawing

structure Draft where
  polylines : Option (List Polyline)
  bounds : Option (Option Bounds)

def fields : List (Json.Field Draft) :=
  [⟨"polylines".toList,fun d => d.polylines.isSome,
      (Reader.array Polyline.reader).map fun v d => { d with polylines := some v }⟩,
    ⟨"bounds".toList,fun d => d.bounds.isSome,
      Bounds.optionReader.map fun v d => { d with bounds := some v }⟩]

/-- In an object, bounds that are left out are no bounds. -/
def presumed (form : Form) (bounds : Option (Option Bounds)) : Option (Option Bounds) :=
  match form with
  | .keyed => some (bounds.getD none)
  | .positional => bounds

def shape : Expected := .record "Drawing" 2

def build (form : Form) (d : Draft) : Except Fault Drawing := do
  let polylines ← form.require shape 0 "polylines".toList d.polylines
  let bounds ← form.require shape 1 "bounds".toList (presumed form d.bounds)
  return ⟨polylines,bounds⟩

def record : Record Draft Drawing := ⟨shape,fields,⟨none,none⟩,build⟩

def reader : Reader Drawing := record.reader

def tokens (d : Drawing) : List Token :=
  objectTokens [memberTokens "polylines".toList (arrayTokens (d.polylines.map Polyline.tokens)),
    memberTokens "bounds".toList (Bounds.optionTokens d.bounds)]

end Drawing

end LSystem
