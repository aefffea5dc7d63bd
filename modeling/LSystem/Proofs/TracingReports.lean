import LSystem.Proofs.IgnoredSymbols

/-!
# What tracing reports

Tracing reports the symbols that it ignores, in the order of the word, and at the end either a summary or
the closing bracket at which it fails. The last report is made from the outcome: a summary counts the
polylines that are returned, after the open one has been closed or dropped, and the report of a failure has
the offset of the error. Nothing follows it.

Drawing and rendering trace the word once and report nothing of their own.
-/
namespace LSystem

/-- How severe an event is and what it says, without its fields. -/
def TracingEvent.label (e : TracingEvent) : Severity × String := (e.severity,e.message)

/-- The reports on the ignored symbols of a word. -/
def ignoredEvents (w : Word) : List TracingEvent := (ignored w).map .ignoredSymbol

theorem ignoredEvents_concat (w : Word) (c : Symbol) :
    ignoredEvents (w ++ [c]) = ignoredEvents w ++ ignoredEvents [c] := by
  simp only [ignoredEvents,ignored,List.filter_append,List.map_append]

namespace Tracing

/-- A symbol that is obeyed adds its report, if there is one, before the earlier ones. -/
theorem noted_eq (c : Symbol) (events : List TracingEvent) :
    noted c events = (ignoredEvents [c]).reverse ++ events := by
  by_cases hc : Operation.ofSymbol c = .noop
  · rw [noted,if_pos hc,ignoredEvents,ignored_cons_noop [] hc]
    rfl
  · rw [noted,if_neg hc,ignoredEvents,ignored_cons [] hc]
    rfl

/-- So far only ignored symbols have been reported. -/
theorem events_of_run {g : Settings} {w : Word} {t : Tracing} (h : run g w = .ok t) :
    t.events = (ignoredEvents w).reverse := by
  refine run_induction (P := fun w t => t.events = (ignoredEvents w).reverse) rfl ?_ h
  intro w c t u ht hu
  obtain ⟨k,-,rfl⟩ := read_eq_ok_iff.1 hu
  rw [noted_eq,ht,ignoredEvents_concat,List.reverse_append]

end Tracing

/-- The events that belong to a word and to the outcome of tracing it, which may be told by the number of
its polylines. -/
def Reports (w : Word) (events : List TracingEvent) : Except UnbalancedPop ℕ → Prop
  | .ok lines => events = ignoredEvents w ++ [.traced (byteLength w) lines]
  | .error e => ∃ p, OverpopsAfter w p ∧ e.offset = byteLength p ∧
      events = ignoredEvents p ++ [.popWithoutSave e.offset]

namespace Settings

theorem trace_of_run {g : Settings} {w : Word} {t : Tracing} (h : Tracing.run g w = .ok t) :
    g.trace w = ⟨.ok t.canvas.polylines,
      t.events.reverse ++ [.traced t.offset t.canvas.polylines.length]⟩ := by
  rw [Tracing.run] at h
  rw [trace,h]
  simp only [List.reverse_cons]

theorem trace_of_run_error {g : Settings} {w : Word} {x : UnbalancedPop × List TracingEvent}
    (h : Tracing.run g w = .error x) : g.trace w = ⟨.error x.1,x.2.reverse⟩ := by
  rw [Tracing.run] at h
  rw [trace,h]

theorem reports_trace (g : Settings) (w : Word) :
    Reports w (g.trace w).events ((g.trace w).outcome.map List.length) := by
  cases hr : Tracing.run g w with
  | ok t =>
    have hevents := Tracing.events_of_run hr
    have hoffset := (Tracing.reached_of_run hr).offset
    rw [trace_of_run hr,hevents,hoffset,List.reverse_reverse]
    exact rfl
  | error x =>
    obtain ⟨p,t,hp,ht,rfl⟩ := Tracing.overpop_of_run hr
    have hevents := Tracing.events_of_run ht
    rw [trace_of_run_error hr,hevents,List.reverse_cons,List.reverse_reverse]
    exact ⟨p,hp,rfl,rfl⟩

/-- A word drawn, with everything that is reported on the way. -/
def drawTrace (g : Settings) (w : Word) : Except UnbalancedPop Drawing × List TracingEvent :=
  let t := g.trace w
  (t.outcome.map Drawing.ofPolylines,t.events)

theorem reports_drawTrace (g : Settings) (w : Word) :
    Reports w (g.drawTrace w).2 ((g.drawTrace w).1.map fun d => d.polylines.length) := by
  have hlines : ((g.drawTrace w).1.map fun d => d.polylines.length) =
      (g.trace w).outcome.map List.length := by
    rw [drawTrace]
    cases (g.trace w).outcome with
    | ok l => rfl
    | error e => rfl
  rw [hlines]
  exact g.reports_trace w

end Settings

/-- Of a word that can be traced each ignored symbol is reported, in order, and then the number of its
bytes and of the polylines that are returned. Of any other word the ignored symbols before the first
bracket that closes too much are reported, and then that bracket with the offset of the error. Whether
the word is drawn or rendered makes no difference. -/
theorem traces_are_reported (g : Settings) (w : Word) :
    Reports w (g.trace w).events ((g.polylines w).map List.length) ∧
    (g.drawTrace w).1 = g.draw w ∧
    Reports w (g.drawTrace w).2 ((g.draw w).map fun d => d.polylines.length) ∧
    (∀ (step startAngle turnAngle : Float) (startPosition : Point),
      Reports w (render w step startAngle turnAngle startPosition).events
        ((render w step startAngle turnAngle startPosition).outcome.map List.length)) ∧
    (∀ c, (TracingEvent.ignoredSymbol c).label = (.trace,"ignored symbol")) ∧
    (∀ offset, (TracingEvent.popWithoutSave offset).label = (.warning,"pop with empty stack")) ∧
    ∀ bytes lines,
      (TracingEvent.traced bytes lines).label = (.debug,"interpreted symbol string") := by
  refine ⟨g.reports_trace w,rfl,g.reports_drawTrace w,?_,fun _ => rfl,fun _ => rfl,fun _ _ => rfl⟩
  intro step startAngle turnAngle startPosition
  exact Settings.reports_trace ⟨startPosition,startAngle,turnAngle,step⟩ w

/-- The symbol after the bracket is not reported any more. -/
example : (Settings.standard.trace ['é','F',']','X']).events =
    [.ignoredSymbol 'é',.popWithoutSave 3] := rfl

end LSystem
