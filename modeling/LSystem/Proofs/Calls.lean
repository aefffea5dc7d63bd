import LSystem.Proofs.Expansion
import Mathlib.Algebra.Ring.Nat
import Mathlib.Data.List.Induction
import Mathlib.Logic.Function.Iterate

/-!
# Sequences of calls

A derivation keeps a word and a count, and every call has to move the two together. After any calls
it is the one that the grammar reaches with the passes requested since the last return to the
start. So it does not matter how these passes were split into calls.
-/
namespace LSystem

namespace Rules

theorem substituteTimes_eq_iterate (r : Rules) (n : Nat) (w : Word) :
    r.substituteTimes n w = r.substitute^[n] w := by
  induction n generalizing w with
  | zero => rfl
  | succ n ih => rw [substituteTimes_succ,ih,Function.iterate_succ_apply]

end Rules

/-- The derivation of a grammar after the given number of passes. -/
def Grammar.reached (g : Grammar) (n : Nat) : Derivation :=
  ⟨g.start,g.rules,n,g.rules.substituteTimes n g.start⟩

/-- The passes that a call requests. -/
def Call.passes : Call → Nat
  | .iterate n => n
  | .step => 1
  | _ => 0

/-- Calls that ask for a word or a text and for no change. -/
def Call.Observes : Call → Prop
  | .substitute _ | .start | .rules | .summary => True
  | .iterate _ | .step | .reset => False

/-- The passes requested since the last return to the start. -/
def passesSinceReset (calls : List Call) : Nat :=
  ((calls.reverse.takeWhile fun c => c ≠ .reset).map Call.passes).sum

theorem passesSinceReset_concat (calls : List Call) (c : Call) :
    passesSinceReset (calls ++ [c]) =
      if c = .reset then 0 else passesSinceReset calls + c.passes := by
  unfold passesSinceReset
  rw [List.reverse_append,List.reverse_singleton,List.singleton_append,List.takeWhile_cons]
  by_cases h : c = .reset
  · simp [h]
  · simp [h,Nat.add_comm]

theorem passesSinceReset_concat_of_observes (calls : List Call) {c : Call} (h : c.Observes) :
    passesSinceReset (calls ++ [c]) = passesSinceReset calls := by
  rw [passesSinceReset_concat]
  cases c <;> simp_all [Call.Observes,Call.passes]

namespace Derivation

/-- What is left of a derivation after a sequence of calls. -/
def after (s : Derivation) (calls : List Call) : Derivation :=
  calls.foldl (fun t c => (t.call c).derivation) s

theorem after_concat (s : Derivation) (calls : List Call) (c : Call) :
    s.after (calls ++ [c]) = ((s.after calls).call c).derivation := by
  simp only [after,List.foldl_append,List.foldl_cons,List.foldl_nil]

/-- The answer to a call that has left this derivation. -/
def answer (t : Derivation) : Call → Answer
  | .iterate _ => .word t.current
  | .step => .word t.current
  | .substitute w => .word (t.rules.substitute w)
  | .reset => .done
  | .start => .word t.start
  | .rules => .rules t.rules
  | .summary => .text t.summary

theorem answer_call (s : Derivation) (c : Call) :
    (s.call c).answer = (s.call c).derivation.answer c := by
  cases c <;> rfl

/-- Each call is answered from what the calls before it have left. -/
theorem responses_concat (s : Derivation) (calls : List Call) (c : Call) :
    s.responses (calls ++ [c]) = s.responses calls ++ [(s.after calls).call c] := by
  induction calls generalizing s with
  | nil => rfl
  | cons d calls ih =>
    simp only [List.cons_append,responses,ih]
    rfl

end Derivation

namespace Grammar

variable (g : Grammar)

theorem iterate_reached (m n : Nat) : ((g.reached m).iterate n).1 = g.reached (m + n) := by
  rw [Derivation.iterate_fst]
  simp only [reached,Rules.substituteTimes_add]

/-- One call moves the word and the count of a reached derivation together. -/
theorem call_reached (n : Nat) (c : Call) :
    ((g.reached n).call c).derivation =
      g.reached (if c = .reset then 0 else n + c.passes) := by
  cases c with
  | iterate k => exact g.iterate_reached n k
  | step => exact g.iterate_reached n 1
  | _ => rfl

theorem after_reached (calls : List Call) :
    (g.reached 0).after calls = g.reached (passesSinceReset calls) := by
  induction calls using List.reverseRecOn with
  | nil => rfl
  | append_singleton calls c ih =>
    rw [Derivation.after_concat,ih,call_reached,passesSinceReset_concat]

theorem ofGrammar_eq :
    Derivation.ofGrammar g = if g.start = [] then .error .emptyStart else .ok (g.reached 0) := by
  unfold Derivation.ofGrammar validate
  by_cases h : g.start = []
  · simp [h,Except.map]
  · simp [h,Except.map,reached]

end Grammar

/-- A derivation after some calls, and what it does at the next one. -/
structure FollowsPasses (g : Grammar) (s : Derivation) (calls : List Call) : Prop where
  start : (s.after calls).start = g.start
  rules : (s.after calls).rules = g.rules
  iterations : (s.after calls).iterations = passesSinceReset calls
  current : (s.after calls).current = g.rules.substitute^[(s.after calls).iterations] g.start
  expanded : g.expand (passesSinceReset calls) = .ok (s.after calls).current
  response : ∀ c, s.responses (calls ++ [c]) = s.responses calls ++ [(s.after calls).call c]
  left : ∀ c, ((s.after calls).call c).derivation = s.after (calls ++ [c])
  answered : ∀ c, ((s.after calls).call c).answer = (s.after (calls ++ [c])).answer c
  observed : ∀ c : Call, c.Observes → s.after (calls ++ [c]) = s.after calls
  split : ∀ m n, s.after (calls ++ [.iterate m,.iterate n]) = s.after (calls ++ [.iterate (m + n)])
  unsplit : ∀ others, passesSinceReset others = passesSinceReset calls → s.after others = s.after calls

/-- Only a grammar with an empty start word has no derivation. Any other has one that is, after all
calls, what its grammar reaches with the passes requested since the last reset. -/
theorem calls_follow_passes (g : Grammar) :
    ((∃ e, Derivation.ofGrammar g = .error e) ↔ g.start = []) ∧
      ∀ s, Derivation.ofGrammar g = .ok s → ∀ calls, FollowsPasses g s calls := by
  rw [g.ofGrammar_eq]
  constructor
  · by_cases h : g.start = [] <;> simp [h]
  · intro s hs calls
    by_cases hne : g.start = []
    · rw [if_pos hne] at hs
      exact absurd hs (by simp)
    · rw [if_neg hne] at hs
      obtain rfl := Except.ok.inj hs
      have hleft := g.after_reached
      have hvalid : g.validate = .ok () := Grammar.validate_eq_ok_iff.2 hne
      constructor
      case start => rw [hleft]; rfl
      case rules => rw [hleft]; rfl
      case iterations => rw [hleft]; rfl
      case current =>
        rw [hleft,← Rules.substituteTimes_eq_iterate]
        rfl
      case expanded =>
        rw [hleft]
        exact Grammar.expand_of_valid hvalid _
      case response => exact Derivation.responses_concat _ calls
      case left => exact fun c => (Derivation.after_concat _ calls c).symm
      case answered =>
        intro c
        rw [Derivation.answer_call,Derivation.after_concat]
      case observed =>
        intro c hc
        rw [hleft,hleft,passesSinceReset_concat_of_observes calls hc]
      case split =>
        intro m n
        rw [hleft,hleft,List.append_cons,passesSinceReset_concat,passesSinceReset_concat,
          passesSinceReset_concat]
        simp [Call.passes,Nat.add_assoc]
      case unsplit =>
        intro others h
        rw [hleft,hleft,h]

/-- The snowflake curve. -/
def koch : Grammar := Grammar.ofRules ['F'] [('F',['F','+','F','-','-','F','+','F'])]

/-- Calls with a return to the start in the middle and two ways of asking for a pass after it. -/
def kochCalls : List Call := [.iterate 2,.reset,.step,.substitute ['F','-'],.iterate 1,.summary]

theorem koch_follows_passes :
    koch.start ≠ [] ∧ Derivation.ofGrammar koch = .ok (koch.reached 0) ∧
      FollowsPasses koch (koch.reached 0) kochCalls ∧
        ((koch.reached 0).after kochCalls).iterations = 2 := by
  have hs : Derivation.ofGrammar koch = .ok (koch.reached 0) := rfl
  have h := (calls_follow_passes koch).2 _ hs kochCalls
  exact ⟨by decide,hs,h,h.iterations⟩

end LSystem
