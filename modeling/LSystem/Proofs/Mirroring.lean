import LSystem.Proofs.Number.Signs
import LSystem.Proofs.Relabelling

/-!
# Left and right

Left and right differ in nothing but the sign of the angle that is added to the heading. So if the two
turns are exchanged in a word and the turn angle is the opposite one, every symbol does what it did before
(`Canvas.apply_mirrored`), and the whole trace is the same, with all that is reported. Exchanging two
symbols is a relabelling, so the words of a grammar with exchanged turns are those of the grammar with
exchanged turns, also where the turns have rules of their own.
-/
namespace LSystem

/-- The other turn for a turn, and every other symbol for itself. -/
def mirror : Symbol → Symbol
  | '+' => '-'
  | '-' => '+'
  | c => c

theorem mirror_of_ne {c : Symbol} (hright : c ≠ '+') (hleft : c ≠ '-') : mirror c = c := by
  unfold mirror
  split
  · exact absurd rfl hright
  · exact absurd rfl hleft
  · rfl

/-- A symbol is a right turn, a left turn, or neither and its own mirror image. -/
theorem mirror_cases (c : Symbol) :
    c = '+' ∨ c = '-' ∨ (c ≠ '+' ∧ c ≠ '-' ∧ mirror c = c) := by
  by_cases hright : c = '+'
  · exact .inl hright
  · by_cases hleft : c = '-'
    · exact .inr (.inl hleft)
    · exact .inr (.inr ⟨hright,hleft,mirror_of_ne hright hleft⟩)

theorem mirror_involutive : Function.Involutive mirror := by
  intro c
  rcases mirror_cases c with rfl | rfl | ⟨-,-,h⟩
  · rfl
  · rfl
  · rw [h,h]

theorem utf8Size_mirror (c : Symbol) : (mirror c).utf8Size = c.utf8Size := by
  rcases mirror_cases c with rfl | rfl | ⟨-,-,h⟩
  · rfl
  · rfl
  · rw [h]

/-- The other turn for a turn, and every other operation for itself. -/
def Operation.mirrored : Operation → Operation
  | turnLeft => turnRight
  | turnRight => turnLeft
  | o => o

theorem Operation.ofSymbol_mirror (c : Symbol) : ofSymbol (mirror c) = (ofSymbol c).mirrored := by
  rcases mirror_cases c with rfl | rfl | ⟨hright,hleft,h⟩
  · rfl
  · rfl
  · have hl := mt ofSymbol_eq_turnLeft_iff.1 hleft
    have hr := mt ofSymbol_eq_turnRight_iff.1 hright
    rw [h]
    cases ho : ofSymbol c with
    | turnLeft => exact absurd ho hl
    | turnRight => exact absurd ho hr
    | _ => rfl

/-- The settings with the opposite turn angle. -/
def Settings.mirrored (g : Settings) : Settings := { g with turnAngle := -g.turnAngle }

/-- What one turn does is done by the other with the opposite angle. -/
theorem Canvas.apply_mirrored (g : Settings) (k : Canvas) (o : Operation) :
    k.apply g.mirrored o.mirrored = k.apply g o := by
  cases o with
  | turnLeft =>
    change some { k with pose := k.pose.turn (- -g.turnAngle) } = _
    rw [Number.neg_neg_eq]
    rfl
  | _ => rfl

namespace Tracing

theorem noted_mirror (c : Symbol) (events : List TracingEvent) :
    noted (mirror c) events = noted c events := by
  rcases mirror_cases c with rfl | rfl | ⟨-,-,h⟩
  · rfl
  · rfl
  · rw [h]

theorem read_mirrored (g : Settings) (t : Tracing) (c : Symbol) :
    read g.mirrored t (mirror c) = read g t c := by
  rw [read,read,Operation.ofSymbol_mirror,Canvas.apply_mirrored,utf8Size_mirror]
  simp only [noted_mirror]

theorem run_mirrored (g : Settings) (w : Word) : run g.mirrored (w.map mirror) = run g w := by
  have hread : (fun t c => read g.mirrored t (mirror c)) = read g := by
    funext t c
    exact read_mirrored g t c
  rw [run,List.foldlM_map,hread]
  rfl

end Tracing

namespace Settings

theorem trace_mirrored (g : Settings) (w : Word) : g.mirrored.trace (w.map mirror) = g.trace w := by
  have hrun := Tracing.run_mirrored g w
  rw [Tracing.run,Tracing.run] at hrun
  rw [trace,hrun,trace]

theorem polylines_mirrored (g : Settings) (w : Word) :
    g.mirrored.polylines (w.map mirror) = g.polylines w := by
  rw [polylines,trace_mirrored,polylines]

theorem draw_mirrored (g : Settings) (w : Word) : g.mirrored.draw (w.map mirror) = g.draw w := by
  rw [draw,polylines_mirrored,draw]

end Settings

/-- Exchange the turns of a word and take the opposite turn angle: the polylines are the same to the
bit, or the failure has the same offset, and everything that is reported is the same. The same goes for
grammars. If the turns are exchanged in the start word and on both sides of every rule, the words after
any number of passes are drawn as before, and a grammar without a derivation has none afterwards. -/
theorem left_mirrors_right (s : Settings) :
    (∀ w : Word, s.mirrored.trace (w.map mirror) = s.trace w ∧
      s.mirrored.polylines (w.map mirror) = s.polylines w ∧
      s.mirrored.draw (w.map mirror) = s.draw w) ∧
    ∀ (g : Grammar) (n : ℕ), (g.relabel mirror).start = g.start.map mirror ∧
      (∀ c, (g.relabel mirror).rules.find? (mirror c) = (g.rules.find? c).map (List.map mirror)) ∧
      ((g.relabel mirror).expand n).map s.mirrored.draw = (g.expand n).map s.draw := by
  constructor
  · exact fun w => ⟨s.trace_mirrored w,s.polylines_mirrored w,s.draw_mirrored w⟩
  · intro g n
    have hinjective := mirror_involutive.injective
    refine ⟨rfl,g.rules.find?_relabel hinjective,?_⟩
    rw [g.expand_relabel hinjective]
    cases g.expand n with
    | error e => simp only [Except.map]
    | ok w => simp only [Except.map,s.draw_mirrored]

/-- A rule for the right turn becomes one for the left turn. -/
example : ((Grammar.ofRules ['F','+'] [('+',['-','+','F'])]).relabel mirror).rules.entries =
    [('-',['+','-','F'])] := by
  decide

end LSystem
