import LSystem.Proofs.TracingRuns

/-!
# Where tracing fails

A word can be traced just when it is safe. Otherwise the failure names the bytes before the first
bracket that closes too much. How the word is drawn has no part in this, and neither has what
becomes of the polylines.
-/
namespace LSystem

/-- There is only one first place. -/
theorem OverpopsAfter.unique {w p q : Word} (hp : OverpopsAfter w p) (hq : OverpopsAfter w q) :
    p = q := by
  have earlier : ∀ {u v : Word}, OverpopsAfter w u → OverpopsAfter w v →
      ¬(u ++ [']']) <+: v := by
    intro u v hu hv hpre
    exact absurd (hv.safe _ hpre) (Nat.not_le.2 hu.exceeds)
  rcases List.prefix_or_prefix_of_prefix hp.reads hq.reads with h | h
  · rcases List.prefix_concat_iff.1 h with h | h
    · exact List.append_cancel_right h
    · exact absurd h (earlier hp hq)
  · rcases List.prefix_concat_iff.1 h with h | h
    · exact (List.append_cancel_right h).symm
    · exact absurd h (earlier hq hp)

namespace Settings

theorem polylines_of_run {g : Settings} {w : Word} {t : Tracing} (h : Tracing.run g w = .ok t) :
    g.polylines w = .ok t.canvas.polylines := by
  rw [Tracing.run] at h
  rw [polylines,trace,h]

theorem polylines_of_run_error {g : Settings} {w : Word} {x : UnbalancedPop × List TracingEvent}
    (h : Tracing.run g w = .error x) : g.polylines w = .error x.1 := by
  rw [Tracing.run] at h
  rw [polylines,trace,h]

theorem polylines_of_safe (g : Settings) {w : Word} (h : Safe w) : ∃ l, g.polylines w = .ok l := by
  obtain ⟨t,ht⟩ := Tracing.run_of_safe g h
  exact ⟨_,polylines_of_run ht⟩

theorem safe_of_polylines {g : Settings} {w : Word} {l : List Polyline}
    (h : g.polylines w = .ok l) : Safe w := by
  cases hr : Tracing.run g w with
  | ok t => exact (Tracing.reached_of_run hr).safe
  | error x =>
    rw [polylines_of_run_error hr] at h
    exact absurd h (by simp)

theorem polylines_of_overpop (g : Settings) {w p : Word} (h : OverpopsAfter w p) :
    g.polylines w = .error ⟨byteLength p⟩ := by
  cases hr : Tracing.run g w with
  | ok t => exact absurd (Tracing.reached_of_run hr).safe h.not_safe
  | error x =>
    obtain ⟨q,hq,ho⟩ := Tracing.overpopsAfter_of_run hr
    rw [polylines_of_run_error hr,h.unique hq,← ho]

theorem overpop_of_polylines {g : Settings} {w : Word} {e : UnbalancedPop}
    (h : g.polylines w = .error e) : ∃ p, OverpopsAfter w p ∧ e.offset = byteLength p := by
  cases hr : Tracing.run g w with
  | ok t =>
    rw [polylines_of_run hr] at h
    exact absurd h (by simp)
  | error x =>
    rw [polylines_of_run_error hr] at h
    have heq : x.1 = e := Except.error.inj h
    subst heq
    exact Tracing.overpopsAfter_of_run hr

theorem polylines_eq_error_iff {g : Settings} {w : Word} {e : UnbalancedPop} :
    g.polylines w = .error e ↔ ∃ p, OverpopsAfter w p ∧ e.offset = byteLength p := by
  constructor
  · exact overpop_of_polylines
  · intro hx
    rcases hx with ⟨p,hp,ho⟩
    rw [g.polylines_of_overpop hp,← ho]

theorem exists_error_iff {g : Settings} {w : Word} :
    (∃ e, g.polylines w = .error e) ↔ ∃ p, p <+: w ∧ p.count '[' < p.count ']' := by
  constructor
  · intro hx
    rcases hx with ⟨e,he⟩
    obtain ⟨p,hp,_⟩ := overpop_of_polylines he
    exact ⟨_,hp.reads,hp.exceeds⟩
  · intro hx
    rcases hx with ⟨p,hp,hc⟩
    cases h : g.polylines w with
    | ok l => exact absurd (safe_of_polylines h p hp) (Nat.not_le.2 hc)
    | error e => exact ⟨e,rfl⟩

theorem draw_eq_error_iff {g : Settings} {w : Word} {e : UnbalancedPop} :
    g.draw w = .error e ↔ g.polylines w = .error e := by
  rw [draw]
  cases g.polylines w with
  | ok l => simp [Except.map]
  | error e => simp [Except.map]

/-- Success, and failure with its offset, do not depend on the settings. -/
theorem outcome_eq (g h : Settings) (w : Word) :
    ((g.polylines w).map fun _ => ()) = (h.polylines w).map fun _ => () := by
  cases hg : g.polylines w with
  | ok l =>
    obtain ⟨m,hm⟩ := h.polylines_of_safe (safe_of_polylines hg)
    rw [hm]
    rfl
  | error e =>
    rw [polylines_eq_error_iff.2 (polylines_eq_error_iff.1 hg)]

end Settings

/-- Tracing fails just on the words that close too many brackets somewhere, with the bytes before
the first bracket too many, whatever the settings. Drawing and rendering fail in the same way. -/
theorem fails_at_first_overpop (w : Word) :
    (∀ g : Settings, (∃ e, g.polylines w = .error e) ↔
      ∃ p, p <+: w ∧ p.count '[' < p.count ']') ∧
    (∀ (g : Settings) (e : UnbalancedPop), g.polylines w = .error e ↔
      ∃ p, OverpopsAfter w p ∧ e.offset = byteLength p) ∧
    (∀ g h : Settings,
      ((g.polylines w).map fun _ => ()) = (h.polylines w).map fun _ => ()) ∧
    (∀ (g h : Settings) (e : UnbalancedPop), g.draw w = .error e ↔ h.polylines w = .error e) ∧
    ∀ (g : Settings) (step startAngle turnAngle : Float) (startPosition : Point)
      (e : UnbalancedPop),
      (render w step startAngle turnAngle startPosition).outcome = .error e ↔
        g.polylines w = .error e := by
  have same : ∀ (g h : Settings) (e : UnbalancedPop),
      g.polylines w = .error e ↔ h.polylines w = .error e := fun g h e => by
    rw [Settings.polylines_eq_error_iff,Settings.polylines_eq_error_iff]
  refine ⟨fun g => Settings.exists_error_iff,fun g e => Settings.polylines_eq_error_iff,
    fun g h => g.outcome_eq h w,fun g h e => ?_,fun g step startAngle turnAngle start e => ?_⟩
  · rw [Settings.draw_eq_error_iff]
    exact same g h e
  · exact same ⟨start,startAngle,turnAngle,step⟩ g e

/-- The offset is one of bytes: the symbol before the bracket takes two. -/
example : Settings.standard.polylines ['é',']'] = .error ⟨2⟩ := rfl

end LSystem
