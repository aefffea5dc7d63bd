import LSystem.Proofs.Brackets
import LSystem.Turtle.Tracing
import Mathlib.Data.List.Induction

/-!
# Runs of the turtle

`Settings.poseAfter` says where the turtle stands after a word without a stack of poses: a `]`
takes it back to where it stood before the matching bracket. A run keeps `Canvas.Reached`: the
pose on the canvas is the one after the word read so far, and the saved poses are those before its
open brackets.

What a step preserves a run preserves (`Tracing.run_induction`), and a run that fails has a step
that fails (`Tracing.run_error`).
-/
namespace LSystem

namespace Operation

/-- Does the operation end the open polyline? -/
def ends : Operation → Bool
  | move => true
  | pop => true
  | _ => false

/-- An operation that does something is asked for by its keywords only. -/
theorem ofSymbol_eq_iff {c : Symbol} {o : Operation} (h : o ≠ noop) :
    ofSymbol c = o ↔ c ∈ o.keywords := by
  constructor
  · intro hc
    have hm := mem_keywords_ofSymbol (hc.symm ▸ h)
    rwa [hc] at hm
  · exact ofSymbol_of_mem_keywords

theorem ofSymbol_eq_push_iff {c : Symbol} : ofSymbol c = push ↔ c = '[' :=
  (ofSymbol_eq_iff (by decide)).trans List.mem_singleton

theorem ofSymbol_eq_pop_iff {c : Symbol} : ofSymbol c = pop ↔ c = ']' :=
  (ofSymbol_eq_iff (by decide)).trans List.mem_singleton

theorem ofSymbol_eq_turnLeft_iff {c : Symbol} : ofSymbol c = turnLeft ↔ c = '-' :=
  (ofSymbol_eq_iff (by decide)).trans List.mem_singleton

theorem ofSymbol_eq_turnRight_iff {c : Symbol} : ofSymbol c = turnRight ↔ c = '+' :=
  (ofSymbol_eq_iff (by decide)).trans List.mem_singleton

end Operation

namespace Pose

/-- One degree in radians: the double nearest to π, over 180. -/
def degree : Float := Float.ofBits 0x400921fb54442d18 / 180

theorem radiansPerDegree_eq : radiansPerDegree = degree := by decide +kernel

/-- A step adds its length times the cosine of the heading, and its length times the sine. -/
theorem forward_eq (t : Pose) (distance : Float) :
    t.forward distance = ⟨⟨t.position.x + (t.heading * degree).cos * distance,
      t.position.y + (t.heading * degree).sin * distance⟩,t.heading⟩ := by
  rw [← radiansPerDegree_eq]
  rfl

/-- A turn adds its angle to the heading. -/
theorem turn_eq (t : Pose) (angle : Float) : t.turn angle = ⟨t.position,t.heading + angle⟩ := rfl

end Pose

namespace Settings

/-- The pose after a word, given with its last symbol first. The motion is written out in doubles, and
that the turtle computes it is `Pose.forward_eq` and `Pose.turn_eq`. -/
def poseOf (g : Settings) : (past : Word) → Pose
  | [] => ⟨g.startPosition,g.startAngle⟩
  | c :: past =>
    let t := g.poseOf past
    if c = '-' then ⟨t.position,t.heading + g.turnAngle⟩
    else if c = '+' then ⟨t.position,t.heading + -g.turnAngle⟩
    else if c = ']' then g.poseOf (matchFrom 0 past).reverse
    else if Operation.ofSymbol c = .draw ∨ Operation.ofSymbol c = .move then
      ⟨⟨t.position.x + (t.heading * Pose.degree).cos * g.step,
        t.position.y + (t.heading * Pose.degree).sin * g.step⟩,t.heading⟩
    else t
  termination_by past => past.length
  decreasing_by
    all_goals simp only [List.length_cons,List.length_reverse]
    any_goals omega
    have := length_matchFrom_le 0 past
    omega

/-- The pose after a word. -/
def poseAfter (g : Settings) (w : Word) : Pose := g.poseOf w.reverse

variable (g : Settings)

@[simp] theorem poseAfter_nil : g.poseAfter [] = g.startPose := by
  rw [poseAfter,List.reverse_nil,poseOf,startPose]

theorem poseAfter_concat (w : Word) (c : Symbol) :
    g.poseAfter (w ++ [c]) =
      match Operation.ofSymbol c with
      | .draw => (g.poseAfter w).forward g.step
      | .move => (g.poseAfter w).forward g.step
      | .turnLeft => (g.poseAfter w).turn g.turnAngle
      | .turnRight => (g.poseAfter w).turn (-g.turnAngle)
      | .push => g.poseAfter w
      | .pop => g.poseAfter (beforeMatch w)
      | .noop => g.poseAfter w := by
  simp only [poseAfter,List.reverse_append,List.reverse_singleton,List.singleton_append,beforeMatch]
  rw [poseOf]
  simp only [← Operation.ofSymbol_eq_turnLeft_iff,← Operation.ofSymbol_eq_turnRight_iff,
    ← Operation.ofSymbol_eq_pop_iff,Pose.forward_eq,Pose.turn_eq]
  cases Operation.ofSymbol c <;> rfl

/-- A branch leaves the turtle where it began. -/
theorem poseAfter_branch {u v : Word} (hv : Safe v) (hd : depth v = 0) :
    g.poseAfter (u ++ '[' :: v ++ [']']) = g.poseAfter u := by
  rw [poseAfter_concat,show Operation.ofSymbol ']' = .pop from rfl]
  simp only
  rw [beforeMatch_balanced hv hd]

end Settings

namespace Canvas

/-- The turtle stands where it must after the given word, and the poses before the brackets that are
still open are saved. -/
structure Reached (g : Settings) (w : Word) (k : Canvas) : Prop where
  pose : k.pose = g.poseAfter w
  saved : k.saved = (openings w).map g.poseAfter

theorem reached_blank (g : Settings) : (blank g).Reached g [] where
  pose := by rw [Settings.poseAfter_nil]; rfl
  saved := rfl

/-- Only a `]` can fail, and it fails where no pose is saved. -/
theorem apply_eq_none_iff {g : Settings} {k : Canvas} {c : Symbol} :
    k.apply g (Operation.ofSymbol c) = none ↔ c = ']' ∧ k.saved = [] := by
  rw [← Operation.ofSymbol_eq_pop_iff]
  cases Operation.ofSymbol c with
  | pop =>
    cases hs : k.saved with
    | nil => simp [apply,hs]
    | cons p rest => simp [apply,hs]
  | _ => simp [apply]

theorem apply_pop_eq_some_iff {g : Settings} {k l : Canvas} :
    k.apply g .pop = some l ↔
      ∃ p rest, k.saved = p :: rest ∧ l = { k.restart p with saved := rest } := by
  cases hs : k.saved with
  | nil => simp [apply,hs]
  | cons p rest =>
    simp only [apply,hs,Option.some.injEq,List.cons.injEq]
    constructor
    · intro hx
      subst hx
      exact ⟨p,rest,⟨rfl,rfl⟩,rfl⟩
    · intro hx
      rcases hx with ⟨q,more,⟨rfl,rfl⟩,rfl⟩
      rfl

theorem Reached.apply {g : Settings} {w : Word} {c : Symbol} {k l : Canvas} (h : k.Reached g w)
    (ha : k.apply g (Operation.ofSymbol c) = some l) : l.Reached g (w ++ [c]) := by
  have hpush := Operation.ofSymbol_eq_push_iff (c := c)
  have hpop := Operation.ofSymbol_eq_pop_iff (c := c)
  have hpose := g.poseAfter_concat w c
  by_cases ho : c = '['
  · subst ho
    have heq : { k with saved := k.pose :: k.saved } = l := Option.some.inj ha
    subst heq
    exact ⟨h.pose.trans hpose.symm,by rw [openings_concat_open,List.map_cons,← h.pose,← h.saved]⟩
  · by_cases hc : c = ']'
    · subst hc
      obtain ⟨p,rest,hs,rfl⟩ := apply_pop_eq_some_iff.1 ha
      rw [h.saved] at hs
      obtain ⟨q,more,ho,rfl,rfl⟩ := List.map_eq_cons_iff.1 hs
      constructor
      · rw [hpose]
        change g.poseAfter q = g.poseAfter (beforeMatch w)
        rw [beforeMatch_of_openings ho]
      · rw [openings_concat_close,ho]
        rfl
    · have hsaved : (openings (w ++ [c])).map g.poseAfter = k.saved := by
        rw [openings_concat_other w ho hc,h.saved]
      cases hop : Operation.ofSymbol c with
      | push => exact absurd (hpush.1 hop) ho
      | pop => exact absurd (hpop.1 hop) hc
      | _ =>
        rw [hop] at ha hpose
        have heq := Option.some.inj ha
        subst heq
        exact ⟨by simp only [hpose,← h.pose,restart],hsaved.symm⟩

/-- Closing the open polyline adds it to the finished ones or drops it. -/
theorem reverse_closed (k : Canvas) :
    k.closed.reverse = k.finished.reverse ++
      [k.trail.reverse].filter fun l => 2 ≤ l.length := by
  unfold closed
  rw [List.filter_singleton,List.length_reverse]
  by_cases h : 1 < k.trail.length
  · rw [if_pos h,decide_eq_true (show 2 ≤ k.trail.length from h),List.reverse_cons]
    rfl
  · rw [if_neg h,decide_eq_false (show ¬2 ≤ k.trail.length from h),cond_false,List.append_nil]

/-- What becomes of the polylines, in terms of the pose after the step. -/
theorem lines_of_apply {g : Settings} {k l : Canvas} {o : Operation} (h : k.apply g o = some l) :
    (l.trail = if o.ends then [l.pose.position.round]
      else if o = .draw then l.pose.position.round :: k.trail else k.trail) ∧
    l.finished = if o.ends then k.closed else k.finished := by
  cases o with
  | pop =>
    obtain ⟨p,rest,_,rfl⟩ := apply_pop_eq_some_iff.1 h
    exact ⟨rfl,rfl⟩
  | _ =>
    have heq := Option.some.inj h
    subst heq
    exact ⟨rfl,rfl⟩

end Canvas

namespace Tracing

theorem read_eq_ok_iff {g : Settings} {t u : Tracing} {c : Symbol} :
    read g t c = .ok u ↔ ∃ k, t.canvas.apply g (Operation.ofSymbol c) = some k ∧
      u = ⟨k,t.offset + c.utf8Size,noted c t.events⟩ := by
  unfold read
  cases t.canvas.apply g (Operation.ofSymbol c) with
  | none => simp
  | some k => simp [eq_comm]

theorem read_eq_error_iff {g : Settings} {t : Tracing} {c : Symbol}
    {x : UnbalancedPop × List TracingEvent} :
    read g t c = .error x ↔ c = ']' ∧ t.canvas.saved = [] ∧
      x = (⟨t.offset⟩,.popWithoutSave t.offset :: t.events) := by
  have hn := Canvas.apply_eq_none_iff (g := g) (k := t.canvas) (c := c)
  unfold read
  cases ha : t.canvas.apply g (Operation.ofSymbol c) with
  | none =>
    obtain ⟨hc,hs⟩ := hn.1 ha
    simp [hc,hs,eq_comm]
  | some k =>
    have hne : ¬(c = ']' ∧ t.canvas.saved = []) := fun h => by
      rw [hn.2 h] at ha
      exact absurd ha (by simp)
    simp only [reduceCtorEq,false_iff]
    exact fun h => hne ⟨h.1,h.2.1⟩

/-- The state after a word, or the first failure. -/
def run (g : Settings) (w : Word) : Except (UnbalancedPop × List TracingEvent) Tracing :=
  w.foldlM (read g) (start g)

theorem run_concat (g : Settings) (w : Word) (c : Symbol) :
    run g (w ++ [c]) = run g w >>= fun t => read g t c := by
  rw [run,List.foldlM_append]
  exact bind_congr fun t => by rw [List.foldlM_cons]; exact bind_pure _

/-- What holds at the start and is kept by every step holds after every run. -/
theorem run_induction {g : Settings} {P : Word → Tracing → Prop} (start : P [] (Tracing.start g))
    (step : ∀ w c t u, P w t → read g t c = .ok u → P (w ++ [c]) u) {w : Word} {t : Tracing}
    (h : run g w = .ok t) : P w t := by
  induction w using List.reverseRecOn generalizing t with
  | nil =>
    have heq : Tracing.start g = t := Except.ok.inj h
    subst heq
    exact start
  | append_singleton w c ih =>
    rw [run_concat] at h
    cases hw : run g w with
    | error x => rw [hw] at h; exact absurd h (by simp [bind,Except.bind])
    | ok u =>
      rw [hw] at h
      exact step w c u t (ih hw) h

/-- A run fails at the first step that fails. -/
theorem run_error {g : Settings} {w : Word} {x : UnbalancedPop × List TracingEvent}
    (h : run g w = .error x) :
    ∃ p c t, p ++ [c] <+: w ∧ run g p = .ok t ∧ read g t c = .error x := by
  induction w using List.reverseRecOn with
  | nil => exact absurd (show Except.ok (start g) = .error x from h) (by simp)
  | append_singleton w c ih =>
    cases hw : run g w with
    | error y =>
      rw [run_concat,hw] at h
      have heq : y = x := Except.error.inj h
      subst heq
      obtain ⟨p,d,t,hp,hr,he⟩ := ih hw
      exact ⟨p,d,t,hp.trans (List.prefix_append w [c]),hr,he⟩
    | ok t =>
      rw [run_concat,hw] at h
      exact ⟨w,c,t,List.prefix_refl _,hw,h⟩

/-- The offset counts the bytes read, no bracket was closed too often, and the turtle is where it
must be. -/
structure Reached (g : Settings) (w : Word) (t : Tracing) : Prop where
  offset : t.offset = byteLength w
  safe : Safe w
  canvas : t.canvas.Reached g w

theorem reached_start (g : Settings) : (start g).Reached g [] :=
  ⟨rfl,safe_nil,Canvas.reached_blank g⟩

/-- As many poses are saved as the depth says. -/
theorem Reached.length_saved {g : Settings} {w : Word} {t : Tracing} (h : t.Reached g w) :
    (t.canvas.saved.length : Int) = depth w := by
  rw [h.canvas.saved,List.length_map,length_openings h.safe]

theorem Reached.read {g : Settings} {w : Word} {c : Symbol} {t u : Tracing} (h : t.Reached g w)
    (hr : read g t c = .ok u) : u.Reached g (w ++ [c]) := by
  obtain ⟨k,ha,rfl⟩ := read_eq_ok_iff.1 hr
  have hk := h.canvas.apply ha
  refine ⟨by rw [h.offset]; simp,?_,hk⟩
  rw [safe_concat_iff]
  refine ⟨h.safe,?_⟩
  have hl := h.length_saved
  rw [depth_append,depth_cons,depth_nil]
  by_cases ho : c = '['
  · subst ho
    rw [weight_open]
    omega
  · by_cases hc : c = ']'
    · subst hc
      have hs : t.canvas.saved ≠ [] := fun hs => by
        rw [Canvas.apply_eq_none_iff.2 ⟨rfl,hs⟩] at ha
        exact absurd ha (by simp)
      have hp := List.length_pos_iff.2 hs
      rw [weight_close]
      omega
    · rw [weight_other ho hc]
      omega

theorem reached_of_run {g : Settings} {w : Word} {t : Tracing} (h : run g w = .ok t) :
    t.Reached g w :=
  run_induction (reached_start g) (fun _ _ _ _ ht hr => ht.read hr) h

/-- A failed run closes one bracket too many, and comes with the events of the run before that bracket
and the report on it. -/
theorem overpop_of_run {g : Settings} {w : Word} {x : UnbalancedPop × List TracingEvent}
    (h : run g w = .error x) :
    ∃ p t, OverpopsAfter w p ∧ run g p = .ok t ∧
      x = (⟨byteLength p⟩,.popWithoutSave (byteLength p) :: t.events) := by
  obtain ⟨p,c,t,hp,hr,he⟩ := run_error h
  obtain ⟨rfl,hs,rfl⟩ := read_eq_error_iff.1 he
  have ht := reached_of_run hr
  have hd := ht.length_saved
  rw [hs,List.length_nil] at hd
  exact ⟨p,t,⟨hp,ht.safe,count_concat_close_lt_iff.2 (by omega)⟩,hr,by rw [ht.offset]⟩

theorem overpopsAfter_of_run {g : Settings} {w : Word} {x : UnbalancedPop × List TracingEvent}
    (h : run g w = .error x) : ∃ p, OverpopsAfter w p ∧ x.1.offset = byteLength p := by
  obtain ⟨p,t,hp,_,rfl⟩ := overpop_of_run h
  exact ⟨p,hp,rfl⟩

/-- A run succeeds just on the safe words. -/
theorem run_of_safe (g : Settings) {w : Word} (h : Safe w) : ∃ t, run g w = .ok t := by
  cases hr : run g w with
  | ok t => exact ⟨t,rfl⟩
  | error x =>
    obtain ⟨p,hp,_⟩ := overpopsAfter_of_run hr
    exact absurd h hp.not_safe

end Tracing

end LSystem
