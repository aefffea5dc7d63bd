import LSystem.Geometry.Drawing
import LSystem.Proofs.Number.Extremes

/-!
# Bounds of polylines

The two coordinates do not meet in a fold over points: each side of a box is an extreme of one
coordinate over all points in order (`Bounds.spans_of_ofPoints?`). Where no coordinate is undefined the
box holds all points and each side goes through one of them, and the boxes of two parts of a list of
points join to that of the whole.
-/
namespace LSystem

open Number

/-- Both coordinates are numbers or infinite. -/
def Point.Defined (p : Point) : Prop := p.x.isNaN = false ∧ p.y.isNaN = false

instance : DecidablePred Point.Defined := fun _ => instDecidableAnd

namespace Bounds

/-- The sides of a box are the extremes of the coordinates. -/
structure Spans (b : Bounds) (points : List Point) : Prop where
  left : Extreme (· < ·) (points.map Point.x) b.min.x
  right : Extreme (· > ·) (points.map Point.x) b.max.x
  bottom : Extreme (· < ·) (points.map Point.y) b.min.y
  top : Extreme (· > ·) (points.map Point.y) b.max.y

/-- A box that no point lies outside of and each of whose sides goes through a point. -/
structure Encloses (b : Bounds) (points : List Point) : Prop where
  within : ∀ p ∈ points, (b.min.x ≤ p.x ∧ p.x ≤ b.max.x) ∧ b.min.y ≤ p.y ∧ p.y ≤ b.max.y
  left : ∃ p ∈ points, p.x = b.min.x
  right : ∃ p ∈ points, p.x = b.max.x
  bottom : ∃ p ∈ points, p.y = b.min.y
  top : ∃ p ∈ points, p.y = b.max.y

/-- The box of the lesser and the greater corners. -/
def join (a b : Bounds) : Bounds := ⟨a.min.min b.min,a.max.max b.max⟩

/-- What is kept of a first point and the points after it, side by side. -/
theorem foldl_extend (b : Bounds) (points : List Point) :
    points.foldl extend b =
      ⟨⟨kept (· < ·) b.min.x (points.map Point.x),kept (· < ·) b.min.y (points.map Point.y)⟩,
        ⟨kept (· > ·) b.max.x (points.map Point.x),kept (· > ·) b.max.y (points.map Point.y)⟩⟩ := by
  induction points generalizing b with
  | nil => rfl
  | cons p points ih =>
    rw [List.foldl_cons,ih]
    rfl

theorem ofPoints?_cons (p : Point) (points : List Point) :
    ofPoints? (p :: points) = some
      ⟨⟨kept (· < ·) p.x (points.map Point.x),kept (· < ·) p.y (points.map Point.y)⟩,
        ⟨kept (· > ·) p.x (points.map Point.x),kept (· > ·) p.y (points.map Point.y)⟩⟩ := by
  rw [ofPoints?,foldl_extend]
  rfl

variable {points : List Point} {b : Bounds}

theorem exists_cons_of_ofPoints? (h : ofPoints? points = some b) :
    ∃ p rest, points = p :: rest := by
  cases points with
  | nil => exact absurd h (by simp [ofPoints?])
  | cons p rest => exact ⟨p,rest,rfl⟩

theorem spans_of_ofPoints? (h : ofPoints? points = some b) : b.Spans points := by
  obtain ⟨p,rest,rfl⟩ := exists_cons_of_ofPoints? h
  rw [ofPoints?_cons] at h
  obtain rfl := Option.some.inj h
  exact ⟨(extreme_kept lt_orderedBy _ _).1,(extreme_kept gt_orderedBy _ _).1,
    (extreme_kept lt_orderedBy _ _).1,(extreme_kept gt_orderedBy _ _).1⟩

theorem encloses_of_spans (h : b.Spans points) (hne : points ≠ [])
    (hdef : ∀ p ∈ points, p.Defined) : b.Encloses points := by
  have hx : ∀ x ∈ points.map Point.x, x.isNaN = false :=
    List.forall_mem_map.2 fun p hp => (hdef p hp).1
  have hy : ∀ y ∈ points.map Point.y, y.isNaN = false :=
    List.forall_mem_map.2 fun p hp => (hdef p hp).2
  have left := h.left.lastOf (by simpa using hne) hx
  have right := h.right.lastOf (by simpa using hne) hx
  have bottom := h.bottom.lastOf (by simpa using hne) hy
  have top := h.top.lastOf (by simpa using hne) hy
  constructor
  case within =>
    intro p hp
    have hpx : p.x ∈ points.map Point.x := List.mem_map_of_mem hp
    have hpy : p.y ∈ points.map Point.y := List.mem_map_of_mem hp
    exact ⟨⟨le_of_not_lt (hx _ left.mem) (hx _ hpx) (left.not_before lt_orderedBy hpx),
        le_of_not_lt (hx _ hpx) (hx _ right.mem) (right.not_before gt_orderedBy hpx)⟩,
      le_of_not_lt (hy _ bottom.mem) (hy _ hpy) (bottom.not_before lt_orderedBy hpy),
      le_of_not_lt (hy _ hpy) (hy _ top.mem) (top.not_before gt_orderedBy hpy)⟩
  case left => exact List.mem_map.1 left.mem
  case right => exact List.mem_map.1 right.mem
  case bottom => exact List.mem_map.1 bottom.mem
  case top => exact List.mem_map.1 top.mem

/-- Only the later points have to be defined, as they are gone through on their own. -/
theorem ofPoints?_append {first second : List Point} {a b : Bounds} (ha : ofPoints? first = some a)
    (hb : ofPoints? second = some b) (hdef : ∀ p ∈ second, p.Defined) :
    ofPoints? (first ++ second) = some (a.join b) := by
  obtain ⟨p,rest,rfl⟩ := exists_cons_of_ofPoints? ha
  obtain ⟨q,more,rfl⟩ := exists_cons_of_ofPoints? hb
  rw [ofPoints?_cons] at ha hb
  obtain rfl := Option.some.inj ha
  obtain rfl := Option.some.inj hb
  obtain ⟨hq,hmore⟩ := List.forall_mem_cons.1 hdef
  have hx : ∀ x ∈ more.map Point.x, x.isNaN = false :=
    List.forall_mem_map.2 fun p hp => (hmore p hp).1
  have hy : ∀ y ∈ more.map Point.y, y.isNaN = false :=
    List.forall_mem_map.2 fun p hp => (hmore p hp).2
  rw [List.cons_append,ofPoints?_cons,List.map_append,List.map_append,List.map_cons,List.map_cons,
    kept_append lt_orderedBy _ _ hq.1 hx,kept_append lt_orderedBy _ _ hq.2 hy,
    kept_append gt_orderedBy _ _ hq.1 hx,kept_append gt_orderedBy _ _ hq.2 hy]
  rfl

end Bounds

/-- Polylines have bounds if there is a point in them. Each side of the bounds is an extreme of one
coordinate over all points in order. If all points are defined they lie within the bounds and each side
goes through one of them, and the bounds of points with defined ones after them are the lesser and the
greater corners of the bounds of both. -/
theorem bounds_are_extremes :
    (∀ lines : List Polyline, Bounds.ofPolylines? lines = none ↔ ∀ l ∈ lines, l = []) ∧
    (∀ (lines : List Polyline) (b : Bounds), Bounds.ofPolylines? lines = some b →
      b.Spans lines.flatten ∧ ((∀ p ∈ lines.flatten, p.Defined) → b.Encloses lines.flatten)) ∧
    ∀ (first second whole : List Polyline) (a b : Bounds),
      whole.flatten = first.flatten ++ second.flatten → Bounds.ofPolylines? first = some a →
      Bounds.ofPolylines? second = some b → (∀ p ∈ second.flatten, p.Defined) →
      Bounds.ofPolylines? whole = some (a.join b) := by
  refine ⟨fun lines => ?_,fun lines b hb => ?_,fun first second whole a b hwhole ha hb hdef => ?_⟩
  · rw [Bounds.ofPolylines?,Bounds.ofPoints?_eq_none_iff,List.flatten_eq_nil_iff]
  · have hspans := Bounds.spans_of_ofPoints? hb
    obtain ⟨p,rest,hpoints⟩ := Bounds.exists_cons_of_ofPoints? hb
    exact ⟨hspans,Bounds.encloses_of_spans hspans (by simp [hpoints])⟩
  · rw [Bounds.ofPolylines?,hwhole]
    exact Bounds.ofPoints?_append ha hb hdef

/-- Two polylines with an empty one between them. The height of the first point is undefined, and both
zeros stand on the left. -/
def strayLines : List Polyline :=
  [[⟨signed false infinite,signed false (infinite + 1)⟩,⟨0,1⟩],[],[⟨-0.0,3⟩]]

/-- What comes after the stray point. -/
def straightLines : List Polyline := [[],[⟨-0.0,3⟩,⟨2,0⟩]]

theorem strayLines_bounds_are_extremes :
    (Bounds.ofPolylines? strayLines = some ⟨⟨-0.0,1⟩,⟨signed false infinite,3⟩⟩ ∧
      Bounds.Spans ⟨⟨-0.0,1⟩,⟨signed false infinite,3⟩⟩ strayLines.flatten) ∧
    (Bounds.ofPolylines? straightLines = some ⟨⟨-0.0,0⟩,⟨2,3⟩⟩ ∧
      (∀ p ∈ straightLines.flatten, p.Defined) ∧
      Bounds.Encloses ⟨⟨-0.0,0⟩,⟨2,3⟩⟩ straightLines.flatten) ∧
    Bounds.ofPolylines? (strayLines ++ straightLines) =
      some (Bounds.join ⟨⟨-0.0,1⟩,⟨signed false infinite,3⟩⟩ ⟨⟨-0.0,0⟩,⟨2,3⟩⟩) := by
  have hstray : Bounds.ofPolylines? strayLines = some ⟨⟨-0.0,1⟩,⟨signed false infinite,3⟩⟩ := by
    decide +kernel
  have hstraight : Bounds.ofPolylines? straightLines = some ⟨⟨-0.0,0⟩,⟨2,3⟩⟩ := by decide +kernel
  have hdef : ∀ p ∈ straightLines.flatten, p.Defined := by decide +kernel
  obtain ⟨-,sides,whole⟩ := bounds_are_extremes
  exact ⟨⟨hstray,(sides _ _ hstray).1⟩,⟨hstraight,hdef,(sides _ _ hstraight).2 hdef⟩,
    whole strayLines straightLines _ _ _ List.flatten_append hstray hstraight hdef⟩

end LSystem
