import LSystem.Proofs.Branches
import LSystem.Proofs.LongerWords
import Mathlib.Data.List.Forall2

/-!
# Between two symbols

What is true of a canvas whenever a symbol has been obeyed and the next has not yet been read. A move and
a return close the open polyline and begin another at once, so there always is an open one, and it ends
where the turtle stands. One pose is saved for each bracket that has no match so far, and it is the pose
that the turtle had at that bracket. What is finished is finished for good: an operation only adds
polylines of two points or more (`Canvas.addsLines_of_apply`).
-/
namespace LSystem

/-- A bracket opens after the prefix, and no branch of the word begins with it. -/
structure Unmatched (w p : Word) : Prop where
  opens : p ++ ['['] <+: w
  unclosed : ∀ v, Balanced v → ¬p ++ branch v <+: w

/-- A bracket has no match just where what follows it is safe: the first bracket that closes too much
would be the match. -/
theorem unmatched_iff {w p : Word} : Unmatched w p ↔ ∃ v, Safe v ∧ w = p ++ '[' :: v := by
  constructor
  · intro h
    obtain ⟨v,rfl⟩ := h.opens
    refine ⟨v,?_,(List.append_cons p '[' v).symm⟩
    by_contra hv
    obtain ⟨q,hq⟩ := exists_overpopsAfter hv
    have hdepth := hq.safe.depth_nonneg
    have hless := count_concat_close_lt_iff.1 hq.exceeds
    have hbalanced : Balanced q := balanced_iff.2 ⟨hq.safe,by omega⟩
    refine h.unclosed q hbalanced ?_
    rw [← List.append_cons,List.prefix_append_right_inj,branch,List.cons_append,
      List.cons_prefix_cons]
    exact ⟨rfl,hq.reads⟩
  · intro hx
    rcases hx with ⟨v,hv,rfl⟩
    constructor
    case opens =>
      exact ⟨v,(List.append_cons p '[' v).symm⟩
    case unclosed =>
      intro u hu hpre
      rw [List.prefix_append_right_inj,branch,List.cons_append,List.cons_prefix_cons] at hpre
      have hdepth := (hv.of_prefix hpre.2).depth_nonneg
      rw [depth_append,hu.depth_eq_zero,depth_cons,depth_nil,weight_close] at hdepth
      omega

theorem unmatched_iff_mem_openings {w p : Word} : Unmatched w p ↔ p ∈ openings w :=
  unmatched_iff.trans mem_openings_iff.symm

instance (w : Word) : DecidablePred (Unmatched w) := fun _ =>
  decidable_of_iff _ unmatched_iff_mem_openings.symm

/-- The prefixes before the brackets that have no match, the shortest first. -/
def unmatched (w : Word) : List Word := w.inits.filter fun p => Unmatched w p

theorem mem_unmatched_iff {w p : Word} : p ∈ unmatched w ↔ Unmatched w p := by
  rw [unmatched,List.mem_filter,List.mem_inits,decide_eq_true_eq,and_iff_right_iff_imp]
  exact fun h => (List.prefix_append p ['[']).trans h.opens

theorem pairwise_inits (w : Word) : w.inits.Pairwise fun p q => p.length < q.length := by
  induction w with
  | nil => exact List.pairwise_singleton _ _
  | cons c w ih =>
    rw [List.inits_cons,List.pairwise_cons,List.pairwise_map]
    constructor
    · intro p hp
      obtain ⟨q,-,rfl⟩ := List.mem_map.1 hp
      exact Nat.zero_lt_succ _
    · exact ih.imp fun h => Nat.succ_lt_succ h

/-- The brackets that are open are those without a match, the last one first. -/
theorem reverse_openings (w : Word) : (openings w).reverse = unmatched w := by
  have hopenings := List.pairwise_reverse.2 (pairwise_openings w)
  have hunmatched : (unmatched w).Pairwise fun p q => p.length < q.length :=
    (pairwise_inits w).filter _
  have distinct {l : List Word} (h : l.Pairwise fun p q => p.length < q.length) : l.Nodup :=
    h.imp fun hlt heq => by
      subst heq
      exact absurd hlt (Nat.lt_irrefl _)
  have hperm : (openings w).reverse.Perm (unmatched w) := by
    refine (List.perm_ext_iff_of_nodup (distinct hopenings) (distinct hunmatched)).2 fun p => ?_
    rw [List.mem_reverse,mem_unmatched_iff,unmatched_iff_mem_openings]
  exact hperm.eq_of_pairwise (fun p q _ _ hp hq => absurd hp (Nat.lt_asymm hq)) hopenings hunmatched

namespace Canvas

/-- The second canvas has the finished polylines of the first in their places, and after them only such
as have two points or more. -/
def AddsLines (k l : Canvas) : Prop :=
  ∃ more : List Polyline, l.finished.reverse = k.finished.reverse ++ more ∧
    ∀ line ∈ more, 2 ≤ line.length

variable {g : Settings} {k l m : Canvas} {w : Word}

theorem AddsLines.refl (k : Canvas) : k.AddsLines k :=
  ⟨[],(List.append_nil _).symm,List.forall_mem_nil _⟩

theorem AddsLines.trans (h : k.AddsLines l) (h' : l.AddsLines m) : k.AddsLines m := by
  obtain ⟨more,hl,hmore⟩ := h
  obtain ⟨later,hm,hlater⟩ := h'
  exact ⟨more ++ later,by rw [hm,hl,List.append_assoc],List.forall_mem_append.2 ⟨hmore,hlater⟩⟩

theorem AddsLines.isPrefix_finished (h : k.AddsLines l) :
    k.finished.reverse <+: l.finished.reverse := by
  obtain ⟨more,hl,-⟩ := h
  exact ⟨more,hl.symm⟩

theorem addsLines_of_apply {o : Operation} (h : k.apply g o = some l) : k.AddsLines l := by
  have hfinished := (lines_of_apply h).2
  by_cases hends : o.ends = true
  · rw [if_pos hends] at hfinished
    refine ⟨[k.trail.reverse].filter fun l => 2 ≤ l.length,?_,fun line hline => ?_⟩
    · rw [hfinished,reverse_closed]
    · exact of_decide_eq_true (List.mem_filter.1 hline).2
  · rw [if_neg hends] at hfinished
    refine ⟨[],?_,List.forall_mem_nil _⟩
    rw [hfinished,List.append_nil]

theorem addsLines_of_follow (h : k.follow g w = some l) : k.AddsLines l :=
  rel_of_follow .refl .trans addsLines_of_apply h

theorem isPrefix_polylines (k : Canvas) : k.finished.reverse <+: k.polylines := by
  rw [polylines,reverse_closed]
  exact List.prefix_append _ _

end Canvas

/-- After the word the turtle has the given pose. -/
def Settings.StandsAt (g : Settings) (w : Word) (pose : Pose) : Prop :=
  ∃ t, Tracing.run g w = .ok t ∧ t.canvas.pose = pose

theorem Settings.standsAt_poseAfter (g : Settings) {w : Word} (h : Safe w) :
    g.StandsAt w (g.poseAfter w) := by
  obtain ⟨t,ht⟩ := Tracing.run_of_safe g h
  exact ⟨t,ht,(Tracing.reached_of_run ht).canvas.pose⟩

namespace Canvas

/-- There is an open polyline, and it ends where the turtle stands or is still the start position alone.
The saved poses are those that the turtle had at the brackets without a match. No finished polyline is
shorter than two points. -/
structure InOrder (g : Settings) (w : Word) (k : Canvas) : Prop where
  begun : k.trail ≠ []
  ends : k.EndsAtPose g w
  saved : List.Forall₂ g.StandsAt (unmatched w) k.saved.reverse
  lines : ∀ line ∈ k.finished, 2 ≤ line.length

variable {g : Settings} {k : Canvas} {w : Word}

theorem EndsAtPose.trail_ne_nil (h : k.EndsAtPose g w) : k.trail ≠ [] := by
  intro hnil
  by_cases hw : Marks w
  · have hhead := h.marked hw
    rw [hnil] at hhead
    exact absurd hhead (by simp)
  · have htrail := (h.unmarked hw).1
    rw [hnil] at htrail
    exact absurd htrail (by simp)

theorem Reached.forall₂_saved (h : k.Reached g w) (hw : Safe w) :
    List.Forall₂ g.StandsAt (unmatched w) k.saved.reverse := by
  rw [h.saved,← List.map_reverse,reverse_openings,List.forall₂_map_right_iff,List.forall₂_same]
  intro p hp
  have hpre := (List.prefix_append p ['[']).trans (mem_unmatched_iff.1 hp).opens
  exact g.standsAt_poseAfter (hw.of_prefix hpre)

theorem inOrder_of_canvasAfter? (h : g.canvasAfter? w = some k) : k.InOrder g w := by
  have hends := Settings.endsAtPose_of_canvasAfter? h
  have hsafe : Safe w := Settings.safe_iff_canvasAfter?.2 ⟨k,h⟩
  obtain ⟨more,hfinished,hmore⟩ := addsLines_of_follow h
  rw [show (blank g).finished.reverse = [] from rfl,List.nil_append] at hfinished
  constructor
  case begun => exact hends.trail_ne_nil
  case ends => exact hends
  case saved => exact (Settings.reached_of_canvasAfter? h).forall₂_saved hsafe
  case lines =>
    intro line hline
    rw [← List.mem_reverse,hfinished] at hline
    exact hmore line hline

end Canvas

/-- After every symbol that is obeyed there is an open polyline, which ends where the turtle stands,
rounded, or is still the start position as given, as long as nothing has been drawn, moved or restored.
There is one saved pose for each bracket without a match, in the order of the brackets, and it is the pose
that the turtle had there. Every finished polyline has at least two points, and however the word goes on it
stays in its place, at every later symbol and in the result. -/
theorem canvases_stay_in_order (g : Settings) {w : Word} {t : Tracing}
    (h : Tracing.run g w = .ok t) :
    t.canvas.InOrder g w ∧
    (∀ v u, Tracing.run g (w ++ v) = .ok u →
      t.canvas.finished.reverse <+: u.canvas.finished.reverse) ∧
    ∀ v lines, g.polylines (w ++ v) = .ok lines → t.canvas.finished.reverse <+: lines := by
  have ht := Tracing.canvasAfter?_of_run h
  have later {v : Word} {k : Canvas} (hk : g.canvasAfter? (w ++ v) = some k) :
      t.canvas.finished.reverse <+: k.finished.reverse := by
    rw [Settings.canvasAfter?_append,ht,Option.bind_some] at hk
    exact (Canvas.addsLines_of_follow hk).isPrefix_finished
  refine ⟨Canvas.inOrder_of_canvasAfter? ht,fun v u hu => ?_,fun v lines hlines => ?_⟩
  · exact later (Tracing.canvasAfter?_of_run hu)
  · obtain ⟨k,hk,rfl⟩ := Settings.polylines_eq_ok_iff.1 hlines
    exact (later hk).trans k.isPrefix_polylines

/-- A branch in a branch, and a move that has closed a polyline. -/
def sprout : Word := ['F','[','-','F','[','+','f']

theorem sprout_in_order : unmatched sprout = [['F'],['F','[','-','F']] ∧
    ∃ t u lines, Tracing.run Settings.standard sprout = .ok t ∧
      t.canvas.InOrder Settings.standard sprout ∧
      Tracing.run Settings.standard (sprout ++ ['F',']','F']) = .ok u ∧
      t.canvas.finished.reverse <+: u.canvas.finished.reverse ∧
      Settings.standard.polylines (sprout ++ ['F',']','F']) = .ok lines ∧
      t.canvas.finished.reverse <+: lines ∧ t.canvas.finished.map List.length = [3] := by
  obtain ⟨t,ht⟩ := Tracing.run_of_safe Settings.standard (w := sprout) (by decide)
  obtain ⟨u,hu⟩ := Tracing.run_of_safe Settings.standard (w := sprout ++ ['F',']','F']) (by decide)
  obtain ⟨lines,hlines⟩ := Settings.standard.polylines_of_safe (w := sprout ++ ['F',']','F'])
    (by decide)
  obtain ⟨horder,hlater,hresult⟩ := canvases_stay_in_order Settings.standard ht
  have hlength : (Tracing.run Settings.standard sprout).map
      (fun t => t.canvas.finished.map List.length) = .ok [3] := rfl
  rw [ht] at hlength
  exact ⟨by decide,t,u,lines,ht,horder,hu,hlater _ u hu,hlines,hresult _ lines hlines,
    Except.ok.inj hlength⟩

end LSystem
