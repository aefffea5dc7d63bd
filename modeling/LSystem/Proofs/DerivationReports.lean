import LSystem.Proofs.Calls
import Mathlib.Data.List.Basic

/-!
# What derivations report

Every pass reports its number and the length of the word it has made, and every return to the start is
reported, after which the numbers begin again at one. What a call reports depends only on the number of
passes before it, so the report on a sequence of calls is put together from the calls and these numbers
(`Grammar.events_responses`). Calls that change nothing report nothing. The current word and the count are
read off the derivation between calls, which is no call and reports nothing either.
-/
namespace LSystem

/-- How severe an event is and what it says, without its fields. -/
def DerivationEvent.label (e : DerivationEvent) : Severity × String := (e.severity,e.message)

namespace Grammar

variable (g : Grammar)

/-- The report on the pass with the given number. -/
def passEvent (m : ℕ) : DerivationEvent := .pass m (byteLength (g.rules.substitute^[m] g.start))

/-- The reports on some passes after the given number of earlier ones. -/
def passEvents (i n : ℕ) : List DerivationEvent := (List.range' (i + 1) n).map g.passEvent

/-- What a call reports if the given number of passes has been made before it. -/
def callEvents (i : ℕ) : Call → List DerivationEvent
  | .iterate n => g.passEvents i n
  | .step => g.passEvents i 1
  | .reset => [.resetToStart]
  | .substitute _ | .start | .rules | .summary => []

/-- Passes after others report the words that the start word comes to in all of them. -/
theorem events_iterate (i n : ℕ) : ((g.reached i).iterate n).2 = g.passEvents i n := by
  rw [Derivation.iterate_snd,passEvents,List.range'_eq_map_range,List.map_map]
  apply List.map_congr_left
  intro j _
  have hnumber : i + (j + 1) = i + 1 + j := by omega
  have hword : g.rules.substituteTimes (j + 1) (g.rules.substituteTimes i g.start) =
      g.rules.substitute^[i + 1 + j] g.start := by
    rw [← Rules.substituteTimes_add,hnumber,Rules.substituteTimes_eq_iterate]
  change DerivationEvent.pass (i + (j + 1)) (byteLength (g.rules.substituteTimes (j + 1)
    (g.rules.substituteTimes i g.start))) = g.passEvent (i + 1 + j)
  rw [hnumber,hword,passEvent]

/-- A call reports what its derivation and its passes say. -/
theorem events_call (i : ℕ) (c : Call) : ((g.reached i).call c).events = g.callEvents i c := by
  cases c with
  | iterate n => exact g.events_iterate i n
  | step => exact g.events_iterate i 1
  | _ => rfl

/-- Calls report one after another, each with the passes since the last return to the start. -/
theorem events_responses (calls : List Call) :
    ((g.reached 0).responses calls).flatMap Response.events =
      calls.zipIdx.flatMap fun e => g.callEvents (passesSinceReset (calls.take e.2)) e.1 := by
  induction calls using List.reverseRecOn with
  | nil => rfl
  | append_singleton calls c ih =>
    have hearlier : calls.zipIdx.flatMap (fun e =>
        g.callEvents (passesSinceReset ((calls ++ [c]).take e.2)) e.1) =
          calls.zipIdx.flatMap fun e => g.callEvents (passesSinceReset (calls.take e.2)) e.1 := by
      apply List.flatMap_congr
      intro e he
      have hlt : e.2 < calls.length := List.snd_lt_of_mem_zipIdx he
      rw [List.take_append_of_le_length (Nat.le_of_lt hlt)]
    have hlast : (calls ++ [c]).take calls.length = calls := List.take_left
    rw [Derivation.responses_concat,List.flatMap_append,ih,List.zipIdx_append,List.flatMap_append,
      hearlier,g.after_reached,List.flatMap_singleton,events_call]
    simp only [Nat.zero_add,List.zipIdx_singleton,List.flatMap_singleton,hlast]

/-- What is reported while the start word is passed over. A grammar without a derivation reports
nothing. -/
def expandEvents (n : ℕ) : List DerivationEvent :=
  match g.derive n with
  | .ok (_,events) => events
  | .error _ => []

theorem derive_eq (n : ℕ) :
    g.derive n = if g.start = [] then .error .emptyStart else .ok ((g.reached 0).iterate n) := by
  rw [derive,ofGrammar_eq]
  split
  · rfl
  · rfl

theorem expandEvents_of_valid (h : g.start ≠ []) (n : ℕ) : g.expandEvents n = g.passEvents 0 n := by
  rw [expandEvents,derive_eq,if_neg h,← events_iterate]

theorem expandEvents_of_error {n : ℕ} {e : GrammarError} (h : g.expand n = .error e) :
    g.expandEvents n = [] := by
  rw [expand] at h
  rw [expandEvents]
  cases hd : g.derive n with
  | error e => rfl
  | ok r =>
    rw [hd] at h
    exact absurd h (by simp [Except.map])

end Grammar

/-- A valid grammar has a derivation, and all that is reported of it is put together from what its calls
report, each entered after the passes since the last return to the start. Passes report their numbers
from there on, each with the bytes of the start word passed over that many times, a return to the start
is reported as such, and all other calls report nothing. Expanding the start word reports the passes from
the first one on, and nothing where it fails. -/
theorem calls_are_reported (g : Grammar) :
    (g.validate = .ok () → ∃ s, Derivation.ofGrammar g = .ok s ∧
      (∀ calls, (s.after calls).iterations = passesSinceReset calls ∧
        (s.responses calls).flatMap Response.events =
          calls.zipIdx.flatMap fun e => g.callEvents (s.after (calls.take e.2)).iterations e.1) ∧
      ∀ n, (∃ w, g.expand n = .ok w) ∧ g.expandEvents n = g.passEvents 0 n) ∧
    (∀ n e, g.expand n = .error e → g.expandEvents n = []) ∧
    (∀ m bytes, (DerivationEvent.pass m bytes).label = (.debug,"rewrite pass")) ∧
    DerivationEvent.resetToStart.label = (.debug,"reset to axiom") := by
  refine ⟨fun hvalid => ?_,fun n e => g.expandEvents_of_error,fun _ _ => rfl,rfl⟩
  have hstart := Grammar.validate_eq_ok_iff.1 hvalid
  have hiterations (calls : List Call) :
      ((g.reached 0).after calls).iterations = passesSinceReset calls := by
    rw [g.after_reached]
    rfl
  refine ⟨g.reached 0,by rw [g.ofGrammar_eq,if_neg hstart],fun calls => ⟨hiterations calls,?_⟩,?_⟩
  · simp only [hiterations]
    exact g.events_responses calls
  · exact fun n => ⟨⟨_,Grammar.expand_of_valid hvalid n⟩,g.expandEvents_of_valid hstart n⟩

/-- The numbers begin again after the return to the start, and a word passed over from outside is not
reported. The grammar with an empty start word has nothing to report. -/
theorem koch_calls_are_reported :
    koch.validate = .ok () ∧
    (∃ s, Derivation.ofGrammar koch = .ok s ∧
      (s.responses kochCalls).flatMap Response.events =
        kochCalls.zipIdx.flatMap (fun e =>
          koch.callEvents (s.after (kochCalls.take e.2)).iterations e.1) ∧
      (s.responses kochCalls).flatMap Response.events =
        [.pass 1 8,.pass 2 36,.resetToStart,.pass 1 8,.pass 2 36]) ∧
    koch.expandEvents 2 = koch.passEvents 0 2 ∧
    (Grammar.ofStart []).expand 2 = .error .emptyStart ∧ (Grammar.ofStart []).expandEvents 2 = [] := by
  have hvalid : koch.validate = .ok () := rfl
  have hempty : (Grammar.ofStart []).expand 2 = .error .emptyStart := rfl
  have hfails := (calls_are_reported (Grammar.ofStart [])).2.1 2 _ hempty
  obtain ⟨s,hs,hcalls,hexpand⟩ := (calls_are_reported koch).1 hvalid
  have hlog : (s.responses kochCalls).flatMap Response.events =
      [.pass 1 8,.pass 2 36,.resetToStart,.pass 1 8,.pass 2 36] := by
    rw [← Except.ok.inj hs]
    decide
  exact ⟨hvalid,⟨s,hs,(hcalls kochCalls).2,hlog⟩,(hexpand 2).2,hempty,hfails⟩

end LSystem
