import LSystem.Proofs.Draws
import LSystem.Proofs.LongerWords
import LSystem.Proofs.Number.Signs

/-!
# Turns by nothing

With a turn angle of zero the turtle keeps the heading it starts with, and every saved pose has that
heading too (`Canvas.Straight`). So turns change no canvas and can be left out of a word, and a word that
only turns and draws gives a line of equal displacements.

Negative zero is the one heading that a turn by zero may change, and it is left out.
-/
namespace LSystem

open Number

/-- The word without its turns. -/
def unturned (w : Word) : Word := w.filter fun c => c ≠ '+' ∧ c ≠ '-'

namespace Settings

/-- The turn angle is a zero of either sign, and the start angle is one that can take both of them. -/
structure TurnsByZero (g : Settings) : Prop where
  turn : g.turnAngle = 0 ∨ g.turnAngle = -0
  start : g.startAngle ≠ -0

end Settings

namespace Canvas

variable {g : Settings} {k l : Canvas} {o : Operation}

/-- The turtle has the heading that it started with, and so it will after every return. -/
def Straight (g : Settings) (k : Canvas) : Prop := ∀ t ∈ k.pose :: k.saved, t.heading = g.startAngle

theorem straight_blank (g : Settings) : (blank g).Straight g := by
  intro t ht
  rw [List.mem_singleton.1 ht]
  rfl

theorem turn_eq_self (hg : g.TurnsByZero) (h : k.Straight g) {angle : Float}
    (hangle : magnitude angle = 0) : k.pose.turn angle = k.pose := by
  have hheading : k.pose.heading = g.startAngle := h _ List.mem_cons_self
  have hsum : k.pose.heading + angle = k.pose.heading :=
    add_eq_self (hheading ▸ hg.start) hangle
  rw [Pose.turn,hsum]

theorem apply_turnLeft (hg : g.TurnsByZero) (h : k.Straight g) : k.apply g .turnLeft = some k := by
  have hpose := turn_eq_self hg h (magnitude_of_zero hg.turn)
  rw [apply,hpose]

/-- To the right the opposite of the angle is added, which is a zero too. -/
theorem apply_turnRight (hg : g.TurnsByZero) (h : k.Straight g) : k.apply g .turnRight = some k := by
  have hpose := turn_eq_self hg h (magnitude_neg_of_zero (magnitude_of_zero hg.turn))
  rw [apply,hpose]

theorem Straight.apply (hg : g.TurnsByZero) (h : k.Straight g) (ha : k.apply g o = some l) :
    l.Straight g := by
  cases o with
  | turnLeft =>
    rw [apply_turnLeft hg h] at ha
    exact Option.some.inj ha ▸ h
  | turnRight =>
    rw [apply_turnRight hg h] at ha
    exact Option.some.inj ha ▸ h
  | push =>
    obtain rfl := Option.some.inj ha
    exact List.forall_mem_cons.2 ⟨h _ List.mem_cons_self,h⟩
  | pop =>
    obtain ⟨t,rest,hs,rfl⟩ := apply_pop_eq_some_iff.1 ha
    intro u hu
    exact h u (List.mem_cons_of_mem _ (hs ▸ hu))
  | draw | move | noop =>
    obtain rfl := Option.some.inj ha
    exact List.forall_mem_cons.2 (List.forall_mem_cons.1 h)

/-- A word and what is left of it without its turns lead to the same canvas. -/
theorem follow_unturned (hg : g.TurnsByZero) (h : k.Straight g) (w : Word) :
    k.follow g (unturned w) = k.follow g w := by
  induction w generalizing k with
  | nil => rfl
  | cons c w ih =>
    rw [follow_cons]
    by_cases hc : c ≠ '+' ∧ c ≠ '-'
    · have hkeep : unturned (c :: w) = c :: unturned w := List.filter_cons_of_pos (by simpa using hc)
      rw [hkeep,follow_cons]
      cases ha : k.apply g (Operation.ofSymbol c) with
      | none => rfl
      | some l => exact ih (h.apply hg ha)
    · have hdrop : unturned (c :: w) = unturned w := List.filter_cons_of_neg (by simpa using hc)
      have hidle : k.apply g (Operation.ofSymbol c) = some k := by
        rcases Decidable.not_and_iff_or_not.1 hc with hc | hc
        · obtain rfl := Decidable.not_not.1 hc
          exact apply_turnRight hg h
        · obtain rfl := Decidable.not_not.1 hc
          exact apply_turnLeft hg h
      rw [hdrop,hidle]
      exact ih h

end Canvas

namespace Settings

theorem canvasAfter?_unturned {g : Settings} (hg : g.TurnsByZero) (w : Word) :
    g.canvasAfter? (unturned w) = g.canvasAfter? w :=
  Canvas.follow_unturned hg (Canvas.straight_blank g) w

/-- How far one step goes in the heading of the start, along both axes. -/
def displacement (g : Settings) : Point :=
  ⟨g.startPose.direction.x * g.step,g.startPose.direction.y * g.step⟩

/-- The place after the given number of steps in the heading of the start. -/
def placeAfter (g : Settings) (n : ℕ) : Point :=
  (fun p => ⟨p.x + g.displacement.x,p.y + g.displacement.y⟩)^[n] g.startPosition

/-- The start position as given, and after it the rounded places of as many steps. -/
def straightLine (g : Settings) (n : ℕ) : Polyline :=
  g.startPosition :: (List.range n).map fun i => (g.placeAfter (i + 1)).round

variable (g : Settings)

theorem length_straightLine (n : ℕ) : (g.straightLine n).length = n + 1 := by
  rw [straightLine,List.length_cons,List.length_map,List.length_range]

theorem straightLine_succ (n : ℕ) :
    g.straightLine (n + 1) = g.straightLine n ++ [(g.placeAfter (n + 1)).round] := by
  rw [straightLine,List.range_succ,List.map_append]
  rfl

/-- A step from one of the places leads to the next. -/
theorem forward_placeAfter (n : ℕ) :
    Pose.forward ⟨g.placeAfter n,g.startAngle⟩ g.step = ⟨g.placeAfter (n + 1),g.startAngle⟩ := by
  rw [placeAfter,placeAfter,Function.iterate_succ_apply']
  rfl

/-- The canvas with a straight line of the given number of steps and nothing else. -/
def straightCanvas (n : ℕ) : Canvas :=
  ⟨⟨g.placeAfter n,g.startAngle⟩,[],(g.straightLine n).reverse,[]⟩

theorem canvasAfter?_of_draws {w : Word}
    (h : ∀ c ∈ w, Operation.ofSymbol c = .draw ∨ Operation.ofSymbol c = .noop) :
    g.canvasAfter? w = some (g.straightCanvas (drawCount w)) := by
  induction w using List.reverseRecOn with
  | nil => rfl
  | append_singleton w c ih =>
    have hcount : drawCount (w ++ [c]) = drawCount w + drawCount [c] := List.countP_append
    obtain ⟨hw,hc⟩ := List.forall_mem_append.1 h
    rw [canvasAfter?_concat,ih hw,hcount,drawCount_cons]
    rcases hc c (List.mem_singleton_self c) with hd | hn
    · have hstep := g.forward_placeAfter (drawCount w)
      rw [hd,if_pos rfl,straightCanvas,Option.bind_some,Canvas.apply,hstep]
      simp only [straightCanvas,straightLine_succ,List.reverse_append,List.reverse_singleton,
        List.singleton_append,drawCount_nil,Nat.add_zero]
    · rw [hn]
      rfl

theorem polylines_straightCanvas {n : ℕ} (h : 1 ≤ n) :
    (g.straightCanvas n).polylines = [g.straightLine n] := by
  have hline : 1 < (g.straightCanvas n).trail.length := by
    rw [straightCanvas,List.length_reverse,length_straightLine]
    omega
  rw [Canvas.polylines_of_line hline,straightCanvas,List.reverse_reverse]
  rfl

end Settings

/-- No symbol of the word moves the turtle without drawing, saves a pose or returns to one. -/
def Plain (w : Word) : Prop :=
  ∀ c ∈ w, Operation.ofSymbol c ≠ .move ∧ Operation.ofSymbol c ≠ .push ∧ Operation.ofSymbol c ≠ .pop

instance : DecidablePred Plain := fun w => List.decidableBAll _ w

theorem draw_or_noop_of_mem_unturned {w : Word} (h : Plain w) :
    ∀ c ∈ unturned w, Operation.ofSymbol c = .draw ∨ Operation.ofSymbol c = .noop := by
  intro c hc
  obtain ⟨hw,hne⟩ := List.mem_filter.1 hc
  have hturns : c ≠ '+' ∧ c ≠ '-' := by simpa using hne
  have hleft := mt Operation.ofSymbol_eq_turnLeft_iff.1 hturns.2
  have hright := mt Operation.ofSymbol_eq_turnRight_iff.1 hturns.1
  have hother := h c hw
  cases ho : Operation.ofSymbol c <;> simp_all

theorem drawCount_unturned (w : Word) : drawCount (unturned w) = drawCount w := by
  rw [drawCount,unturned,List.countP_filter]
  apply List.countP_congr
  intro c _
  have hplus : Operation.ofSymbol c = .draw → c ≠ '+' := fun h hc => by
    subst hc
    exact absurd h (by decide)
  have hminus : Operation.ofSymbol c = .draw → c ≠ '-' := fun h hc => by
    subst hc
    exact absurd h (by decide)
  simpa using fun h => ⟨hplus h,hminus h⟩

/-- Where turns add a zero to the heading, a word has the same polylines without its turns, or fails at
the same closing bracket. If nothing else than draws and ignored symbols is left, the polyline goes from the
start position on by equal displacements, added one after another and rounded only where a point is
emitted. -/
theorem zero_turns_are_idle {g : Settings} (hg : g.TurnsByZero) :
    (∀ w, (∃ l, g.polylines w = .ok l ∧ g.polylines (unturned w) = .ok l) ∨
      ∃ p, OverpopsAfter w p ∧ OverpopsAfter (unturned w) (unturned p) ∧
        g.polylines w = .error ⟨byteLength p⟩ ∧
        g.polylines (unturned w) = .error ⟨byteLength (unturned p)⟩) ∧
    ∀ w, Plain w → 1 ≤ drawCount w → g.polylines w = .ok [g.straightLine (drawCount w)] := by
  constructor
  · intro w
    cases hw : g.polylines w with
    | ok l =>
      have hsame := Settings.canvasAfter?_unturned hg w
      exact .inl ⟨l,rfl,Settings.polylines_of_same_canvas hsame.symm hw⟩
    | error e =>
      obtain ⟨p,hp,-⟩ := Settings.overpop_of_polylines hw
      have hp' := hp.filter g rfl (Settings.canvasAfter?_unturned hg p)
      rw [← hw]
      exact .inr ⟨p,hp,hp',g.polylines_of_overpop hp,g.polylines_of_overpop hp'⟩
  · intro w hplain hdraws
    have hcanvas := g.canvasAfter?_of_draws (draw_or_noop_of_mem_unturned hplain)
    rw [Settings.canvasAfter?_unturned hg,drawCount_unturned] at hcanvas
    exact Settings.polylines_eq_ok_iff.2 ⟨_,hcanvas,(g.polylines_straightCanvas hdraws).symm⟩

/-- Straight on at thirty degrees, with turns by negative zero. -/
def straightOn : Settings := ⟨Point.origin,30,-0,10⟩

theorem straightOn_turns_are_idle :
    (straightOn.TurnsByZero ∧ Plain ['F','+','é','F','-'] ∧ 1 ≤ drawCount ['F','+','é','F','-']) ∧
    (∃ l, straightOn.polylines ['F','+','[','-','F',']','f','F'] = .ok l ∧
      straightOn.polylines ['F','[','F',']','f','F'] = .ok l) ∧
    (∃ p, byteLength p = 4 ∧ byteLength (unturned p) = 2 ∧
      OverpopsAfter ['+','é','-',']'] p ∧ OverpopsAfter ['é',']'] (unturned p) ∧
      straightOn.polylines ['+','é','-',']'] = .error ⟨byteLength p⟩ ∧
      straightOn.polylines ['é',']'] = .error ⟨byteLength (unturned p)⟩) ∧
    straightOn.polylines ['F','+','é','F','-'] = .ok [straightOn.straightLine 2] := by
  have hg : straightOn.TurnsByZero := ⟨.inr rfl,by decide +kernel⟩
  have laws := zero_turns_are_idle hg
  have hplain : Plain ['F','+','é','F','-'] := by decide
  have hdraws : 1 ≤ drawCount ['F','+','é','F','-'] := by decide
  refine ⟨⟨hg,hplain,hdraws⟩,?_,?_,laws.2 _ hplain hdraws⟩
  · rcases laws.1 ['F','+','[','-','F',']','f','F'] with h | ⟨p,hp,-⟩
    · exact h
    · exact absurd (show Safe ['F','+','[','-','F',']','f','F'] by decide) hp.not_safe
  · have hfails : straightOn.polylines ['+','é','-',']'] = .error ⟨4⟩ := rfl
    have hrest : straightOn.polylines ['é',']'] = .error ⟨2⟩ := rfl
    rcases laws.1 ['+','é','-',']'] with ⟨l,hl,-⟩ | ⟨p,hp,hp',hw,hv⟩
    · rw [hfails] at hl
      exact absurd hl (by simp)
    · have hlong := Except.error.inj (hw.symm.trans hfails)
      have hshort := Except.error.inj (hv.symm.trans hrest)
      exact ⟨p,congrArg UnbalancedPop.offset hlong,congrArg UnbalancedPop.offset hshort,hp,hp',hw,hv⟩

end LSystem
