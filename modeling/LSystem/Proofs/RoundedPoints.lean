import LSystem.Proofs.Draws
import LSystem.Proofs.Number.RoundedDoubles

/-!
# Rounded points

A point is rounded coordinate by coordinate, and what holds of rounded doubles holds of both. Every
point that is emitted has been rounded, so rounding it again changes nothing. The only exception is the
start position, which is emitted as given where the first polyline begins there, that is, where the
word draws before anything ends the open polyline.
-/
namespace LSystem

open Number

namespace Point

/-- Both coordinates are rounded exactly, to the doubles nearest to the nearest decimals with five
places. -/
theorem round_exact (p : Point) :
    RoundedTo 5 p.x p.round.x ∧ RoundedTo 5 p.y p.round.y :=
  ⟨roundedTo_roundPlaces 5 p.x,roundedTo_roundPlaces 5 p.y⟩

/-- A little to the left of zero, and above it by 0.015625, halfway between two decimals. -/
def halfway : Point := ⟨signed true 1,signed false 0x3f90000000000000⟩

/-- Infinitely far to the right on the same height. -/
def faraway : Point := ⟨signed false infinite,signed false 0x3f90000000000000⟩

/-- The first coordinate is undefined. -/
def nowhere : Point := ⟨signed false (infinite + 1),0⟩

theorem halfway_round_exact :
    (halfway.x.isFinite = true ∧ isNegative halfway.round.x = isNegative halfway.x) ∧
    (halfway.y.isFinite = true ∧ ∃ q : ℕ, NearestWhole q (|number halfway.y| * 10 ^ 5) ∧
      NearestDouble halfway.round.y (withSign (isNegative halfway.y) (q / 10 ^ 5))) ∧
    (faraway.x.isInf = true ∧ faraway.round.x = faraway.x) ∧
    nowhere.x.isNaN = true ∧ nowhere.round.x.isNaN = true := by
  have hx : halfway.x.isFinite = true := by decide +kernel
  have hy : halfway.y.isFinite = true := by decide +kernel
  have hinf : faraway.x.isInf = true := by decide +kernel
  have hnan : nowhere.x.isNaN = true := by decide +kernel
  exact ⟨⟨hx,(round_exact halfway).1.sign hx⟩,⟨hy,(round_exact halfway).2.nearest hy⟩,
    ⟨hinf,(round_exact faraway).1.infinite hinf⟩,hnan,(round_exact nowhere).1.undefined hnan⟩

/-- What has been rounded stays as it is. -/
theorem round_round (p : Point) : p.round.round = p.round := by
  simp only [round,roundPlaces_idem]

/-- The point on the other side of the origin. -/
def opposite (p : Point) : Point := ⟨-p.x,-p.y⟩

/-- Rounding swaps no two points from left to right or from below to above, and on the other side of
the origin it does the same. -/
theorem rounding_keeps_order_and_sign :
    (∀ p q : Point, (p.x ≤ q.x → p.round.x ≤ q.round.x) ∧ (p.y ≤ q.y → p.round.y ≤ q.round.y)) ∧
    ∀ p : Point, (p.x.isNaN = false → p.opposite.round.x = -p.round.x) ∧
      (p.y.isNaN = false → p.opposite.round.y = -p.round.y) :=
  ⟨fun _ _ => ⟨roundPlaces_le 5,roundPlaces_le 5⟩,fun _ => ⟨roundPlaces_neg 5,roundPlaces_neg 5⟩⟩

theorem halfway_left_of_faraway :
    (halfway.x ≤ faraway.x ∧ halfway.y ≤ faraway.y ∧ halfway.x.isNaN = false ∧
      halfway.y.isNaN = false) ∧
    halfway.round.x ≤ faraway.round.x ∧ halfway.round.y ≤ faraway.round.y ∧
    halfway.opposite.round.x = -halfway.round.x ∧ halfway.opposite.round.y = -halfway.round.y := by
  have hx : halfway.x ≤ faraway.x := by decide +kernel
  have hy : halfway.y ≤ faraway.y := by decide +kernel
  have hxdef : halfway.x.isNaN = false := by decide +kernel
  have hydef : halfway.y.isNaN = false := by decide +kernel
  have horder := rounding_keeps_order_and_sign.1 halfway faraway
  have hsign := rounding_keeps_order_and_sign.2 halfway
  exact ⟨⟨hx,hy,hxdef,hydef⟩,horder.1 hx,horder.2 hy,hsign.1 hxdef,hsign.2 hydef⟩

/-- Rounding moves no finite coordinate by a unit of the fifth decimal place or more, leaves it finite,
and leaves it alone where it is large or a multiple of 1/32. -/
theorem rounding_stays_near (p : Point) :
    (p.x.isFinite = true → StaysNear p.x p.round.x) ∧
    (p.y.isFinite = true → StaysNear p.y p.round.y) :=
  ⟨staysNear_roundPlaces,staysNear_roundPlaces⟩

/-- Two coordinates that stay, the one next to -2³⁶ and 3/32. -/
def resting : Point := ⟨signed true 0x4230000000000001,signed false 0x3fb8000000000000⟩

theorem resting_stays_near :
    (resting.x.isFinite = true ∧ resting.y.isFinite = true ∧ 2 ^ 36 ≤ |number resting.x| ∧
      number resting.y = (3 : ℤ) / 32) ∧
    StaysNear resting.x resting.round.x ∧ StaysNear resting.y resting.round.y ∧
    resting.round.x = resting.x ∧ resting.round.y = resting.y := by
  have hx : resting.x.isFinite = true := by decide +kernel
  have hy : resting.y.isFinite = true := by decide +kernel
  have hlarge : 2 ^ 36 ≤ |number resting.x| := by decide +kernel
  have hfraction : number resting.y = (3 : ℤ) / 32 := by decide +kernel
  have hnearx := (rounding_stays_near resting).1 hx
  have hneary := (rounding_stays_near resting).2 hy
  exact ⟨⟨hx,hy,hlarge,hfraction⟩,hnearx,hneary,hnearx.large hlarge,hneary.fraction 3 hfraction⟩

end Point

/-- A piece that begins after a cut is followed by such pieces only. -/
theorem before_ne_nil_of_mem_piecesFrom {before symbols rest : Word} (h : before ≠ []) :
    ∀ p ∈ piecesFrom before symbols rest, p.before ≠ [] := by
  induction rest generalizing before symbols with
  | nil =>
    intro p hp
    obtain rfl := List.mem_singleton.1 hp
    exact h
  | cons c rest ih =>
    intro p hp
    rw [piecesFrom] at hp
    split at hp
    · rcases List.mem_cons.1 hp with rfl | hp
      · exact h
      · exact ih (by simp) p hp
    · exact ih h p hp

/-- The first piece goes up to the first cut, and all others begin after one. -/
theorem piecesFrom_eq_cons (before symbols rest : Word) :
    ∃ later, piecesFrom before symbols rest =
        ⟨before,symbols ++ rest.takeWhile (!cuts ·)⟩ :: later ∧
      ∀ p ∈ later, p.before ≠ [] := by
  induction rest generalizing symbols with
  | nil => exact ⟨[],by simp [piecesFrom],by simp⟩
  | cons c rest ih =>
    rw [piecesFrom]
    by_cases hc : cuts c = true
    · refine ⟨_,by rw [if_pos hc,List.takeWhile_cons_of_neg (by simp [hc]),List.append_nil],?_⟩
      exact before_ne_nil_of_mem_piecesFrom (by simp)
    · obtain ⟨later,hpieces,hlater⟩ := ih (symbols ++ [c])
      refine ⟨later,?_,hlater⟩
      rw [if_neg hc,hpieces,List.takeWhile_cons_of_pos (by simpa using hc)]
      simp

/-- No move and no return to a saved pose stands before the first draw. -/
def StartsDrawing (w : Word) : Prop :=
  Unbroken (w.takeWhile fun c => Operation.ofSymbol c ≠ .draw)

instance : DecidablePred StartsDrawing := fun w =>
  inferInstanceAs (Decidable (Unbroken (w.takeWhile fun c => Operation.ofSymbol c ≠ .draw)))

/-- In a word with a draw this says that there is one before the first cut. -/
theorem startsDrawing_iff {w : Word} (h : 0 < drawCount w) :
    StartsDrawing w ↔ 0 < drawCount (w.takeWhile (!cuts ·)) := by
  rw [StartsDrawing,unbroken_iff]
  induction w with
  | nil => exact absurd h (by simp)
  | cons c w ih =>
    rw [drawCount_cons] at h
    by_cases hd : Operation.ofSymbol c = .draw
    · have hc : cuts c = false := cuts_eq_false_iff.2 (by simp [hd])
      rw [List.takeWhile_cons_of_neg (by simp [hd]),List.takeWhile_cons_of_pos (by simp [hc]),
        drawCount_cons,if_pos hd]
      exact ⟨fun _ => by omega,fun _ => by simp⟩
    · rw [if_neg hd,Nat.zero_add] at h
      rw [List.takeWhile_cons_of_pos (by simpa using hd),List.forall_mem_cons]
      by_cases hc : cuts c = true
      · rw [List.takeWhile_cons_of_neg (by simp [hc])]
        simp [hc]
      · rw [List.takeWhile_cons_of_pos (by simpa using hc),drawCount_cons,if_neg hd,Nat.zero_add,
          ← ih h]
        simp [hc]

namespace Settings

variable {g : Settings}

theorem round_of_mem_drawn {before symbols : Word} {p : Point} (h : p ∈ g.drawn before symbols) :
    p.round = p := by
  induction symbols generalizing before with
  | nil => exact absurd h (by simp [drawn])
  | cons c symbols ih =>
    rw [drawn] at h
    split at h
    · rcases List.mem_cons.1 h with rfl | h
      · exact Point.round_round _
      · exact ih h
    · exact ih h

/-- After a cut all points of a stroke are rounded, the first one included. -/
theorem round_of_mem_stroke {piece : Piece} (hb : piece.before ≠ []) {p : Point}
    (h : p ∈ g.stroke piece) : p.round = p := by
  rw [stroke,origin,if_neg hb] at h
  rcases List.mem_cons.1 h with rfl | h
  · exact Point.round_round _
  · exact round_of_mem_drawn h

/-- The first stroke begins at the start position and is a line if it draws. Of all others the points
are rounded. -/
theorem strokes_eq (g : Settings) (w : Word) :
    ∃ later : List Polyline, (∀ l ∈ later, ∀ p ∈ l, p.round = p) ∧
      g.strokes w = if 0 < drawCount (w.takeWhile (!cuts ·)) then
        (g.startPosition :: g.drawn [] (w.takeWhile (!cuts ·))) :: later else later := by
  obtain ⟨pieces',hpieces,hlater⟩ := piecesFrom_eq_cons [] [] w
  refine ⟨(pieces'.map g.stroke).filter fun l => 2 ≤ l.length,?_,?_⟩
  · intro l hl p hp
    obtain ⟨piece,hm,rfl⟩ := List.mem_map.1 (List.mem_filter.1 hl).1
    exact round_of_mem_stroke (hlater piece hm) hp
  · rw [strokes,pieces,hpieces,List.map_cons,List.filter_cons,length_stroke,List.nil_append]
    have hline : 2 ≤ drawCount (w.takeWhile (!cuts ·)) + 1 ↔
        0 < drawCount (w.takeWhile (!cuts ·)) := by omega
    simp only [hline,decide_eq_true_eq]
    rfl

/-- Rounding leaves the points of all polylines as they are, but for a first point of the first
polyline that is the start position. -/
structure EmitsRounded (g : Settings) (w : Word) (lines : List Polyline) : Prop where
  rounded : ∀ (i j : ℕ) (l : Polyline) (p : Point), lines[i]? = some l → l[j]? = some p →
    p.round = p ∨ i = 0 ∧ j = 0 ∧ StartsDrawing w
  verbatim : StartsDrawing w → ∀ (l : Polyline) (p : Point), lines[0]? = some l → l[0]? = some p →
    p = g.startPosition

theorem emitsRounded_strokes (g : Settings) (w : Word) : g.EmitsRounded w (g.strokes w) := by
  obtain ⟨later,hlater,hstrokes⟩ := g.strokes_eq w
  have hrounded (i j : ℕ) (l : Polyline) (p : Point) (hl : later[i]? = some l)
      (hp : l[j]? = some p) : p.round = p :=
    hlater l (List.mem_of_getElem? hl) p (List.mem_of_getElem? hp)
  rcases Nat.eq_zero_or_pos (drawCount w) with hnone | hdraws
  · rw [(g.strokes_eq_nil_iff w).2 hnone]
    exact ⟨fun i j l p hl => absurd hl (by simp),fun _ l p hl => absurd hl (by simp)⟩
  have hiff := startsDrawing_iff hdraws
  by_cases hstarts : StartsDrawing w
  · rw [hstrokes,if_pos (hiff.1 hstarts)]
    constructor
    case rounded =>
      intro i j l p hl hp
      cases i with
      | succ i => exact .inl (hrounded i j l p hl hp)
      | zero =>
        obtain rfl := Option.some.inj hl
        cases j with
        | zero => exact .inr ⟨rfl,rfl,hstarts⟩
        | succ j => exact .inl (round_of_mem_drawn (List.mem_of_getElem? hp))
    case verbatim =>
      intro _ l p hl hp
      obtain rfl := Option.some.inj hl
      exact (Option.some.inj hp).symm
  · rw [hstrokes,if_neg (mt hiff.2 hstarts)]
    exact ⟨fun i j l p hl hp => .inl (hrounded i j l p hl hp),fun h => absurd h hstarts⟩

end Settings

/-- Rounding a point a second time changes nothing, and so it changes no point that is emitted but
the start position. -/
theorem rounded_points_stay :
    (∀ p : Point, p.round.round = p.round) ∧
    ∀ (g : Settings) (w : Word) (lines : List Polyline), g.polylines w = .ok lines →
      g.EmitsRounded w lines := by
  refine ⟨Point.round_round,fun g w lines h => ?_⟩
  obtain rfl := g.polylines_eq_ok h
  exact g.emitsRounded_strokes w

/-- A start position with more than five decimal places. -/
def offGrid : Settings :=
  { Settings.standard with startPosition := ⟨Float.ofBits 0x3fbf9add3739635f,0⟩ }

theorem offGrid_points_stay :
    StartsDrawing ['+','F','f','F'] ∧ offGrid.startPosition.round ≠ offGrid.startPosition ∧
      ∃ lines, offGrid.polylines ['+','F','f','F'] = .ok lines ∧
        offGrid.EmitsRounded ['+','F','f','F'] lines := by
  obtain ⟨lines,h⟩ := offGrid.polylines_of_safe (w := ['+','F','f','F']) (by decide)
  exact ⟨by decide,by decide +kernel,lines,h,rounded_points_stay.2 _ _ _ h⟩

end LSystem
