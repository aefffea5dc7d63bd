import LSystem.Proofs.UnbalancedPops

/-!
# What a word leaves on a canvas

`Canvas.follow` obeys a word symbol by symbol from any canvas, without offsets and reports. It is the
drawing half of a run, so tracing a word succeeds just where the word can be followed from the blank
canvas, and gives the polylines of the canvas it leads to (`Settings.polylines_eq_ok_iff`). The first
bracket that closes too much is the first at which no pose is saved (`overpopsAfter_iff`).

What every operation keeps is kept by a word (`Settings.canvasAfter?_induction`). So the open polyline
ends where the turtle stands, from the first point on that is put on the canvas
(`Settings.endsAtPose_of_canvasAfter?`). A preorder that holds along every operation holds along a word
(`Canvas.rel_of_follow`).
-/
namespace LSystem

namespace Canvas

/-- The canvas once a word has been obeyed. There is none where a pose is missing on the way. -/
def follow (g : Settings) (k : Canvas) (w : Word) : Option Canvas :=
  w.foldlM (fun k c => k.apply g (Operation.ofSymbol c)) k

variable (g : Settings) (k : Canvas)

@[simp] theorem follow_nil : k.follow g [] = some k := rfl

theorem follow_cons (c : Symbol) (w : Word) :
    k.follow g (c :: w) = (k.apply g (Operation.ofSymbol c)).bind fun l => l.follow g w := rfl

theorem follow_append (u v : Word) :
    k.follow g (u ++ v) = (k.follow g u).bind fun l => l.follow g v := by
  rw [follow,List.foldlM_append]
  rfl

theorem follow_concat (w : Word) (c : Symbol) :
    k.follow g (w ++ [c]) = (k.follow g w).bind fun l => l.apply g (Operation.ofSymbol c) := by
  rw [follow_append]
  congr 1
  funext l
  rw [follow_cons]
  exact Option.bind_fun_some _

/-- A reflexive and transitive relation between a canvas and what any operation makes of it also holds
between a canvas and what a word makes of it. -/
theorem rel_of_follow {g : Settings} {R : Canvas → Canvas → Prop} (refl : ∀ k, R k k)
    (trans : ∀ {j k l}, R j k → R k l → R j l)
    (step : ∀ {k l o}, k.apply g o = some l → R k l) {k l : Canvas} {w : Word}
    (h : k.follow g w = some l) : R k l := by
  induction w generalizing k with
  | nil =>
    obtain rfl : k = l := Option.some.inj h
    exact refl k
  | cons c w ih =>
    rw [follow_cons] at h
    obtain ⟨j,hj,hl⟩ := Option.bind_eq_some_iff.1 h
    exact trans (step hj) (ih hl)

end Canvas

namespace Settings

/-- The canvas that a word leads to from the blank one. -/
def canvasAfter? (g : Settings) (w : Word) : Option Canvas := (Canvas.blank g).follow g w

variable {g : Settings} {w : Word} {k : Canvas}

theorem canvasAfter?_concat (g : Settings) (w : Word) (c : Symbol) :
    g.canvasAfter? (w ++ [c]) =
      (g.canvasAfter? w).bind fun k => k.apply g (Operation.ofSymbol c) :=
  Canvas.follow_concat g _ w c

theorem canvasAfter?_append (g : Settings) (u v : Word) :
    g.canvasAfter? (u ++ v) = (g.canvasAfter? u).bind fun k => k.follow g v :=
  Canvas.follow_append g _ u v

/-- What holds of the blank canvas and is kept by every operation holds after every word. -/
theorem canvasAfter?_induction {P : Word → Canvas → Prop} (blank : P [] (Canvas.blank g))
    (step : ∀ w c k l, P w k → k.apply g (Operation.ofSymbol c) = some l → P (w ++ [c]) l)
    (h : g.canvasAfter? w = some k) : P w k := by
  induction w using List.reverseRecOn generalizing k with
  | nil =>
    have heq : Canvas.blank g = k := Option.some.inj h
    subst heq
    exact blank
  | append_singleton w c ih =>
    rw [canvasAfter?_concat] at h
    obtain ⟨l,hl,ha⟩ := Option.bind_eq_some_iff.1 h
    exact step w c l k (ih hl) ha

theorem reached_of_canvasAfter? (h : g.canvasAfter? w = some k) : k.Reached g w :=
  canvasAfter?_induction (Canvas.reached_blank g) (fun _ _ _ _ hk ha => hk.apply ha) h

end Settings

namespace Tracing

variable {g : Settings} {w : Word}

theorem canvasAfter?_of_run {t : Tracing} (h : run g w = .ok t) :
    g.canvasAfter? w = some t.canvas := by
  refine run_induction (P := fun w t => g.canvasAfter? w = some t.canvas) rfl ?_ h
  intro w c t u ht hu
  obtain ⟨k,ha,rfl⟩ := read_eq_ok_iff.1 hu
  rw [Settings.canvasAfter?_concat,ht]
  exact ha

/-- Where a run fails no pose is saved, so the word cannot be followed either. -/
theorem canvasAfter?_of_run_error {x : UnbalancedPop × List TracingEvent}
    (h : run g w = .error x) : g.canvasAfter? w = none := by
  obtain ⟨p,c,t,⟨rest,rfl⟩,hr,he⟩ := run_error h
  obtain ⟨rfl,hs,-⟩ := read_eq_error_iff.1 he
  rw [Settings.canvasAfter?_append,Settings.canvasAfter?_concat,canvasAfter?_of_run hr,
    Option.bind_some,Canvas.apply_eq_none_iff.2 ⟨rfl,hs⟩,Option.bind_none]

theorem run_of_canvasAfter? {k : Canvas} (h : g.canvasAfter? w = some k) :
    ∃ t, run g w = .ok t ∧ t.canvas = k := by
  cases hr : run g w with
  | ok t =>
    rw [canvasAfter?_of_run hr] at h
    exact ⟨t,rfl,Option.some.inj h⟩
  | error x =>
    rw [canvasAfter?_of_run_error hr] at h
    exact absurd h (by simp)

end Tracing

namespace Settings

variable {g : Settings} {w : Word}

/-- The safe words are those that can be followed. -/
theorem safe_iff_canvasAfter? : Safe w ↔ ∃ k, g.canvasAfter? w = some k := by
  constructor
  · intro h
    obtain ⟨t,ht⟩ := Tracing.run_of_safe g h
    exact ⟨t.canvas,Tracing.canvasAfter?_of_run ht⟩
  · intro hx
    rcases hx with ⟨k,hk⟩
    obtain ⟨t,ht,-⟩ := Tracing.run_of_canvasAfter? hk
    exact (Tracing.reached_of_run ht).safe

/-- The polylines of a word are those of the canvas that it leads to. -/
theorem polylines_eq_ok_iff {l : List Polyline} :
    g.polylines w = .ok l ↔ ∃ k, g.canvasAfter? w = some k ∧ l = k.polylines := by
  constructor
  · intro h
    obtain ⟨t,ht⟩ := Tracing.run_of_safe g (safe_of_polylines h)
    rw [polylines_of_run ht] at h
    exact ⟨t.canvas,Tracing.canvasAfter?_of_run ht,(Except.ok.inj h).symm⟩
  · intro hx
    rcases hx with ⟨k,hk,rfl⟩
    obtain ⟨t,ht,rfl⟩ := Tracing.run_of_canvasAfter? hk
    exact polylines_of_run ht

/-- Words that lead to the same canvas have the same polylines. -/
theorem polylines_of_same_canvas {v : Word} {l : List Polyline}
    (h : g.canvasAfter? v = g.canvasAfter? w) (hv : g.polylines v = .ok l) :
    g.polylines w = .ok l := by
  obtain ⟨k,hk,rfl⟩ := polylines_eq_ok_iff.1 hv
  exact polylines_eq_ok_iff.2 ⟨k,h.symm.trans hk,rfl⟩

/-- As many poses are saved as brackets are open. -/
theorem length_saved {k : Canvas} (h : g.canvasAfter? w = some k) :
    (k.saved.length : Int) = depth w := by
  rw [(reached_of_canvasAfter? h).saved,List.length_map,
    length_openings (safe_iff_canvasAfter?.2 ⟨k,h⟩)]

/-- The first bracket that closes too much is the first that finds no saved pose. -/
theorem overpopsAfter_iff (g : Settings) {p : Word} :
    OverpopsAfter w p ↔ p ++ [']'] <+: w ∧ ∃ k, g.canvasAfter? p = some k ∧ k.saved = [] := by
  constructor
  · intro h
    obtain ⟨k,hk⟩ := (safe_iff_canvasAfter? (g := g)).1 h.safe
    have hdepth := count_concat_close_lt_iff.1 h.exceeds
    have hlength := length_saved hk
    exact ⟨h.reads,k,hk,List.length_eq_zero_iff.1 (by omega)⟩
  · intro hx
    rcases hx with ⟨hreads,k,hk,hs⟩
    have hlength := length_saved hk
    rw [hs,List.length_nil] at hlength
    exact ⟨hreads,safe_iff_canvasAfter?.2 ⟨k,hk⟩,count_concat_close_lt_iff.2 (by omega)⟩

end Settings

/-- The first bracket that closes too much stays so when symbols are left out, if closing brackets are
kept and the word before it leads to the same canvas. -/
theorem OverpopsAfter.filter {w p : Word} (h : OverpopsAfter w p) (g : Settings)
    {keep : Symbol → Bool} (hclose : keep ']' = true)
    (hsame : g.canvasAfter? (p.filter keep) = g.canvasAfter? p) :
    OverpopsAfter (w.filter keep) (p.filter keep) := by
  obtain ⟨hreads,k,hk,hs⟩ := g.overpopsAfter_iff.1 h
  refine g.overpopsAfter_iff.2 ⟨?_,k,?_,hs⟩
  · have hfilter := hreads.filter keep
    rwa [List.filter_append,List.filter_cons_of_pos hclose] at hfilter
  · rwa [hsame]

namespace Operation

/-- Does the operation put a point on the canvas? -/
def marks : Operation → Bool
  | draw => true
  | move => true
  | pop => true
  | _ => false

end Operation

/-- Some symbol of the word puts a point on the canvas. -/
def Marks (w : Word) : Prop := ∃ c ∈ w, (Operation.ofSymbol c).marks = true

instance : DecidablePred Marks := fun w => List.decidableBEx _ w

theorem not_marks_nil : ¬Marks [] := by simp [Marks]

theorem marks_concat_iff {w : Word} {c : Symbol} :
    Marks (w ++ [c]) ↔ Marks w ∨ (Operation.ofSymbol c).marks = true := by
  simp [Marks,or_and_right,exists_or]

/-- The open polyline ends where the turtle stands, rounded. Before the first mark the turtle has not
left the start position, which is the only point there is, as given. -/
structure Canvas.EndsAtPose (g : Settings) (w : Word) (k : Canvas) : Prop where
  marked : Marks w → k.trail.head? = some k.pose.position.round
  unmarked : ¬Marks w → k.trail = [g.startPosition] ∧ k.pose.position = g.startPosition

namespace Canvas

variable {g : Settings} {w : Word} {c : Symbol} {k l : Canvas} {o : Operation}

theorem head?_trail_of_marks (h : k.apply g o = some l) (ho : o.marks = true) :
    l.trail.head? = some l.pose.position.round := by
  rw [(lines_of_apply h).1]
  cases o with
  | draw | move | pop => rfl
  | _ => exact absurd ho (by decide)

/-- An operation that puts no point on the canvas leaves the turtle in its place. -/
theorem unchanged_of_not_marks (h : k.apply g o = some l) (ho : o.marks = false) :
    l.trail = k.trail ∧ l.pose.position = k.pose.position := by
  cases o with
  | draw | move | pop => exact absurd ho (by decide)
  | _ =>
    have heq := Option.some.inj h
    subst heq
    exact ⟨rfl,rfl⟩

theorem endsAtPose_blank (g : Settings) : (blank g).EndsAtPose g [] :=
  ⟨fun h => absurd h not_marks_nil,fun _ => ⟨rfl,rfl⟩⟩

theorem EndsAtPose.apply (h : k.EndsAtPose g w) (ha : k.apply g (Operation.ofSymbol c) = some l) :
    l.EndsAtPose g (w ++ [c]) := by
  cases hc : (Operation.ofSymbol c).marks with
  | true =>
    have hmarks : Marks (w ++ [c]) := marks_concat_iff.2 (.inr hc)
    exact ⟨fun _ => head?_trail_of_marks ha hc,fun hn => absurd hmarks hn⟩
  | false =>
    have hiff : Marks (w ++ [c]) ↔ Marks w := by simp [marks_concat_iff,hc]
    obtain ⟨htrail,hposition⟩ := unchanged_of_not_marks ha hc
    constructor
    case marked =>
      intro hm
      rw [htrail,hposition]
      exact h.marked (hiff.1 hm)
    case unmarked =>
      intro hn
      rw [htrail,hposition]
      exact h.unmarked (mt hiff.2 hn)

end Canvas

theorem Settings.endsAtPose_of_canvasAfter? {g : Settings} {w : Word} {k : Canvas}
    (h : g.canvasAfter? w = some k) : k.EndsAtPose g w :=
  canvasAfter?_induction (Canvas.endsAtPose_blank g) (fun _ _ _ _ hk ha => hk.apply ha) h

end LSystem
