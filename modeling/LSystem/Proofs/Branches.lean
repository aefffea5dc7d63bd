import LSystem.Proofs.Canvases

/-!
# Branches

What stands between a bracket and its match is a branch. A branch that can be traced leaves the turtle
and the stack of poses as they were before it, whatever it holds, and a new polyline begins where the
branch began. So what is traced after a branch does not depend on it (`branches_are_isolated`), and the
branch leaves no gap in what is drawn around it (`branches_attach`).
-/
namespace LSystem

/-- No prefix closes more brackets than it opens, and in the end as many are closed as opened. -/
structure Balanced (w : Word) : Prop where
  safe : Safe w
  count : w.count '[' = w.count ']'

instance : DecidablePred Balanced := fun w =>
  decidable_of_iff (Safe w ∧ w.count '[' = w.count ']') ⟨fun h => ⟨h.1,h.2⟩,fun h => ⟨h.1,h.2⟩⟩

/-- A word in brackets. -/
def branch (w : Word) : Word := '[' :: w ++ [']']

theorem append_branch (u w : Word) : u ++ branch w = u ++ '[' :: w ++ [']'] :=
  (List.append_assoc ..).symm

theorem balanced_iff {w : Word} : Balanced w ↔ Safe w ∧ depth w = 0 := by
  rw [depth_eq_count]
  constructor
  · intro h
    exact ⟨h.safe,by rw [h.count]; omega⟩
  · intro h
    exact ⟨h.1,by omega⟩

theorem Balanced.depth_eq_zero {w : Word} (h : Balanced w) : depth w = 0 := (balanced_iff.1 h).2

theorem Balanced.safe_append_branch {u w : Word} (h : Balanced w) (hu : Safe u) :
    Safe (u ++ branch w) := by
  have hdepth := hu.depth_nonneg
  have hopen : Safe (u ++ ['[']) := by
    rw [safe_concat_iff,depth_append,depth_cons,depth_nil,weight_open]
    exact ⟨hu,by omega⟩
  have hinside : Safe (u ++ ['['] ++ w) := by
    refine safe_append_iff.2 ⟨hopen,fun q hq => ?_⟩
    have hd := (Safe.of_prefix h.safe hq).depth_nonneg
    have ho := hopen.depth_nonneg
    omega
  rw [append_branch,List.append_cons u,safe_concat_iff]
  refine ⟨hinside,?_⟩
  simp only [depth_append,depth_cons,depth_nil,h.depth_eq_zero,weight_open,weight_close]
  omega

theorem Balanced.openings_append_branch {w : Word} (h : Balanced w) (u : Word) :
    openings (u ++ branch w) = openings u := by
  rw [append_branch,openings_concat_close,openings_append_open h.safe h.depth_eq_zero,
    List.tail_cons]

/-- Every bracket that closes in a safe word closes a branch. -/
theorem exists_branch_of_safe {w : Word} (h : Safe (w ++ [']'])) :
    ∃ u v, Balanced v ∧ w ++ [']'] = u ++ branch v := by
  obtain ⟨hw,hd⟩ := safe_concat_iff.1 h
  rw [depth_append,depth_cons,depth_nil,weight_close,← length_openings hw] at hd
  cases ho : openings w with
  | nil =>
    rw [ho,List.length_nil] at hd
    exact absurd hd (by decide)
  | cons u rest =>
    have hu : (openings w)[0]? = some u := by rw [ho]; rfl
    obtain ⟨v,hv,hdepth,rfl⟩ := eq_append_of_openings hu
    exact ⟨u,v,balanced_iff.2 ⟨hv,hdepth⟩,(append_branch u v).symm⟩

namespace Canvas

/-- The canvas with polylines that were finished before. -/
def onto (k : Canvas) (earlier : List Polyline) : Canvas :=
  { k with finished := k.finished ++ earlier }

/-- The turtle and the saved poses of a canvas, with nothing drawn but a point where the turtle
stands. -/
def resumed (k : Canvas) : Canvas := ⟨k.pose,k.saved,[k.pose.position.round],[]⟩

variable {g : Settings} {k l : Canvas}

theorem closed_onto (earlier : List Polyline) : (k.onto earlier).closed = k.closed ++ earlier := by
  unfold closed onto
  split
  · rfl
  · rfl

theorem restart_onto (earlier : List Polyline) (pose : Pose) :
    (k.onto earlier).restart pose = (k.restart pose).onto earlier := by
  rw [restart,closed_onto]
  rfl

/-- What is finished has no part in any operation. -/
theorem apply_onto (earlier : List Polyline) (o : Operation) :
    (k.onto earlier).apply g o = (k.apply g o).map (·.onto earlier) := by
  cases o with
  | move => exact congrArg some (restart_onto earlier _)
  | pop =>
    cases hs : k.saved with
    | nil => simp [apply,onto,hs]
    | cons pose saved =>
      have honto : (k.onto earlier).saved = pose :: saved := hs
      simp only [apply,hs,honto,restart_onto,Option.map_some]
      rfl
  | _ => rfl

theorem follow_onto (earlier : List Polyline) (w : Word) :
    (k.onto earlier).follow g w = (k.follow g w).map (·.onto earlier) := by
  induction w generalizing k with
  | nil => rfl
  | cons c w ih =>
    rw [follow_cons,follow_cons,apply_onto]
    cases k.apply g (Operation.ofSymbol c) with
    | none => rfl
    | some l => exact ih

theorem polylines_onto (earlier : List Polyline) :
    (k.onto earlier).polylines = earlier.reverse ++ k.polylines := by
  rw [polylines,closed_onto,List.reverse_append,polylines]

end Canvas

namespace Settings

variable {g : Settings} {u w : Word} {k l : Canvas}

/-- A branch can be followed wherever it stands. -/
theorem exists_canvasAfter?_branch (hw : Balanced w) (hk : g.canvasAfter? u = some k) :
    ∃ l, g.canvasAfter? (u ++ branch w) = some l :=
  safe_iff_canvasAfter?.1 (hw.safe_append_branch (safe_iff_canvasAfter?.2 ⟨k,hk⟩))

theorem trail_of_canvasAfter?_close (h : g.canvasAfter? (w ++ [']']) = some l) :
    l.trail = [l.pose.position.round] := by
  rw [canvasAfter?_concat] at h
  obtain ⟨k,-,ha⟩ := Option.bind_eq_some_iff.1 h
  rw [(Canvas.lines_of_apply ha).1]
  rfl

/-- After a branch all is as before it, but that the polylines are finished and a new one begins where
the branch began. -/
theorem canvasAfter?_branch (hw : Balanced w) (hk : g.canvasAfter? u = some k)
    (hl : g.canvasAfter? (u ++ branch w) = some l) : l = k.resumed.onto l.finished := by
  have hu := reached_of_canvasAfter? hk
  have hr := reached_of_canvasAfter? hl
  have hpose : l.pose = k.pose := by
    rw [hr.pose,hu.pose,append_branch,g.poseAfter_branch hw.safe hw.depth_eq_zero]
  have hsaved : l.saved = k.saved := by
    rw [hr.saved,hu.saved,hw.openings_append_branch]
  rw [append_branch] at hl
  have htrail := trail_of_canvasAfter?_close hl
  rw [hpose] at htrail
  calc l = ⟨l.pose,l.saved,l.trail,l.finished⟩ := rfl
    _ = k.resumed.onto l.finished := by
      rw [hpose,hsaved,htrail]
      rfl

/-- What follows a branch is traced from the resumed canvas. -/
theorem polylines_branch_eq_ok_iff {v : Word} {lines : List Polyline} (hw : Balanced w)
    (hk : g.canvasAfter? u = some k) (hl : g.canvasAfter? (u ++ branch w) = some l) :
    g.polylines (u ++ branch w ++ v) = .ok lines ↔
      ∃ m, k.resumed.follow g v = some m ∧ lines = l.finished.reverse ++ m.polylines := by
  rw [polylines_eq_ok_iff,canvasAfter?_append,hl,Option.bind_some,canvasAfter?_branch hw hk hl,
    Canvas.follow_onto]
  simp only [Option.map_eq_some_iff]
  constructor
  · intro hx
    rcases hx with ⟨_,⟨m,hm,rfl⟩,rfl⟩
    exact ⟨m,hm,Canvas.polylines_onto _⟩
  · intro hx
    rcases hx with ⟨m,hm,rfl⟩
    exact ⟨_,⟨m,hm,rfl⟩,(Canvas.polylines_onto _).symm⟩

theorem exists_canvasAfter?_of_polylines {v : Word} {lines : List Polyline}
    (h : g.polylines (u ++ v) = .ok lines) : ∃ k, g.canvasAfter? u = some k :=
  safe_iff_canvasAfter?.1 (Safe.of_prefix (safe_of_polylines h) (List.prefix_append u v))

/-- The canvases before and after a branch of a word that can be traced. -/
theorem canvases_around_branch {v : Word} {lines : List Polyline} (hw : Balanced w)
    (h : g.polylines (u ++ branch w ++ v) = .ok lines) :
    ∃ k l m, g.canvasAfter? u = some k ∧ g.canvasAfter? (u ++ branch w) = some l ∧
      k.resumed.follow g v = some m ∧ lines = l.finished.reverse ++ m.polylines := by
  obtain ⟨l,hl⟩ := exists_canvasAfter?_of_polylines h
  rw [List.append_assoc] at h
  obtain ⟨k,hk⟩ := exists_canvasAfter?_of_polylines h
  rw [← List.append_assoc] at h
  obtain ⟨m,hm,hlines⟩ := (polylines_branch_eq_ok_iff hw hk hl).1 h
  exact ⟨k,l,m,hk,hl,hm,hlines⟩

/-- Whether a word with a branch can be traced is a matter of what stands around the branch. -/
theorem exists_polylines_branch_iff {v : Word} (hw : Balanced w) :
    (∃ lines, g.polylines (u ++ branch w ++ v) = .ok lines) ↔
      ∃ k m, g.canvasAfter? u = some k ∧ k.resumed.follow g v = some m := by
  constructor
  · intro hx
    rcases hx with ⟨lines,h⟩
    obtain ⟨k,l,m,hk,-,hm,-⟩ := canvases_around_branch hw h
    exact ⟨k,m,hk,hm⟩
  · intro hx
    rcases hx with ⟨k,m,hk,hm⟩
    obtain ⟨l,hl⟩ := exists_canvasAfter?_branch hw hk
    exact ⟨_,(polylines_branch_eq_ok_iff hw hk hl).2 ⟨m,hm,rfl⟩⟩

end Settings

/-- Whether a word can be traced does not depend on what is in a branch of it. The polylines finished
inside the branch come first, and after them the same in both words: what the rest of the word makes of
the pose and the saved poses from before the branch, with a new polyline at that pose. -/
theorem branches_are_isolated (g : Settings) (u v : Word) {w₁ w₂ : Word} (h₁ : Balanced w₁)
    (h₂ : Balanced w₂) :
    ((∃ l, g.polylines (u ++ branch w₁ ++ v) = .ok l) ↔
      ∃ l, g.polylines (u ++ branch w₂ ++ v) = .ok l) ∧
    ∀ l₁ l₂, g.polylines (u ++ branch w₁ ++ v) = .ok l₁ →
      g.polylines (u ++ branch w₂ ++ v) = .ok l₂ →
      ∃ k k₁ k₂ m, g.canvasAfter? u = some k ∧ g.canvasAfter? (u ++ branch w₁) = some k₁ ∧
        g.canvasAfter? (u ++ branch w₂) = some k₂ ∧ k.resumed.follow g v = some m ∧
        l₁ = k₁.finished.reverse ++ m.polylines ∧ l₂ = k₂.finished.reverse ++ m.polylines := by
  constructor
  · rw [Settings.exists_polylines_branch_iff h₁,Settings.exists_polylines_branch_iff h₂]
  · intro l₁ l₂ hl₁ hl₂
    obtain ⟨k,k₁,m,hk,hk₁,hm,rfl⟩ := Settings.canvases_around_branch h₁ hl₁
    obtain ⟨k',k₂,m',hk',hk₂,hm',rfl⟩ := Settings.canvases_around_branch h₂ hl₂
    obtain rfl : k = k' := Option.some.inj (hk.symm.trans hk')
    obtain rfl : m = m' := Option.some.inj (hm.symm.trans hm')
    exact ⟨k,k₁,k₂,m,hk,hk₁,hk₂,hm,rfl,rfl⟩

/-- A straight twig. -/
def twig : Word := ['F']

/-- A twig that turns, with a twig of its own that is drawn apart. -/
def forkedTwig : Word := ['-','F','[','f','F',']','F']

/-- Either twig on a trunk that goes on, all in one branch. -/
theorem twigs_are_isolated :
    Balanced twig ∧ Balanced forkedTwig ∧ ∃ l₁ l₂ k k₁ k₂ m,
      Settings.standard.polylines (['[','F'] ++ branch twig ++ ['F',']','F']) = .ok l₁ ∧
      Settings.standard.polylines (['[','F'] ++ branch forkedTwig ++ ['F',']','F']) = .ok l₂ ∧
      Settings.standard.canvasAfter? ['[','F'] = some k ∧
      Settings.standard.canvasAfter? (['[','F'] ++ branch twig) = some k₁ ∧
      Settings.standard.canvasAfter? (['[','F'] ++ branch forkedTwig) = some k₂ ∧
      k.resumed.follow Settings.standard ['F',']','F'] = some m ∧
      l₁ = k₁.finished.reverse ++ m.polylines ∧ l₂ = k₂.finished.reverse ++ m.polylines := by
  have h₁ : Balanced twig := by decide
  have h₂ : Balanced forkedTwig := by decide
  obtain ⟨hiff,hsplit⟩ := branches_are_isolated Settings.standard ['[','F'] ['F',']','F'] h₁ h₂
  obtain ⟨l₁,hl₁⟩ := Settings.standard.polylines_of_safe
    (w := ['[','F'] ++ branch twig ++ ['F',']','F']) (by decide)
  obtain ⟨l₂,hl₂⟩ := hiff.1 ⟨l₁,hl₁⟩
  obtain ⟨k,k₁,k₂,m,h⟩ := hsplit l₁ l₂ hl₁ hl₂
  exact ⟨h₁,h₂,l₁,l₂,k,k₁,k₂,m,hl₁,hl₂,h⟩

/-- In a word that can be traced every bracket that closes ends a branch. The point at which a polyline
begins after a branch is that at which the open polyline ended before it. Where nothing had been put on
the canvas by then, it is the start position, rounded. -/
theorem branches_attach (g : Settings) {s : Word} {lines : List Polyline}
    (h : g.polylines s = .ok lines) :
    (∀ p, p ++ [']'] <+: s → ∃ u w, Balanced w ∧ p ++ [']'] = u ++ branch w) ∧
    ∀ u w v, Balanced w → s = u ++ branch w ++ v →
      ∃ k l p, g.canvasAfter? u = some k ∧ g.canvasAfter? (u ++ branch w) = some l ∧
        l.trail = [p] ∧ (Marks u → k.trail.head? = some p) ∧
        (¬Marks u → p = g.startPosition.round) := by
  refine ⟨fun p hp => ?_,fun u w v hw hs => ?_⟩
  · exact exists_branch_of_safe (Safe.of_prefix (Settings.safe_of_polylines h) hp)
  · rw [hs] at h
    obtain ⟨k,l,m,hk,hl,-,-⟩ := Settings.canvases_around_branch hw h
    have hends := Settings.endsAtPose_of_canvasAfter? hk
    refine ⟨k,l,k.pose.position.round,hk,hl,?_,hends.marked,fun hn => ?_⟩
    · rw [Settings.canvasAfter?_branch hw hk hl]
      rfl
    · rw [(hends.unmarked hn).2]

/-- A twig at the very start, where the turtle has only turned, and one after a line. -/
def twigs : Word := ['+'] ++ branch forkedTwig ++ ['F'] ++ branch forkedTwig

theorem twigs_attach : ∃ lines, Settings.standard.polylines twigs = .ok lines ∧
    Balanced forkedTwig ∧
    (¬Marks ['+'] ∧ ∃ l, Settings.standard.canvasAfter? (['+'] ++ branch forkedTwig) = some l ∧
      l.trail = [Settings.standard.startPosition.round]) ∧
    Marks (['+'] ++ branch forkedTwig ++ ['F']) ∧ ∃ k l p,
      Settings.standard.canvasAfter? (['+'] ++ branch forkedTwig ++ ['F']) = some k ∧
      Settings.standard.canvasAfter? twigs = some l ∧ l.trail = [p] ∧ k.trail.head? = some p := by
  have hw : Balanced forkedTwig := by decide
  have unmarked : ¬Marks ['+'] := by decide
  have marked : Marks (['+'] ++ branch forkedTwig ++ ['F']) := by decide
  obtain ⟨lines,h⟩ := Settings.standard.polylines_of_safe (w := twigs) (by decide)
  have laws := (branches_attach Settings.standard h).2
  obtain ⟨_,l,p,-,hl,htrail,-,hstart⟩ := laws ['+'] forkedTwig (['F'] ++ branch forkedTwig) hw rfl
  obtain ⟨k',l',p',hk',hl',htrail',hlast,-⟩ := laws _ forkedTwig [] hw (List.append_nil _).symm
  rw [hstart unmarked] at htrail
  exact ⟨lines,h,hw,⟨unmarked,l,hl,htrail⟩,marked,k',l',p',hk',hl',htrail',hlast marked⟩

end LSystem
