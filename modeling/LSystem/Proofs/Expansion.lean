import LSystem.Grammar.Derivation

/-!
# Expansion

Passes of a derivation are passes over its current word, so the word of a valid grammar after some
passes is its start word substituted as often.
-/
namespace LSystem

namespace Rules

/-- A symbol is replaced by a rule of the table or stays. -/
theorem image_cases (r : Rules) (c : Symbol) : (c,r.image c) ∈ r.entries ∨ r.image c = [c] := by
  unfold image find?
  cases h : r.entries.lookup c with
  | none => exact .inr rfl
  | some w =>
    obtain ⟨l,m,he,_⟩ := List.lookup_eq_some_iff.1 h
    rw [he]
    exact .inl (List.mem_append_right l List.mem_cons_self)

/-- Symbols that no rule brings in are not brought in. -/
theorem forall_mem_substitute {r : Rules} {P : Symbol → Prop}
    (rules : ∀ e ∈ r.entries, ∀ c ∈ e.2, P c) {w : Word} (h : ∀ c ∈ w, P c) :
    ∀ c ∈ r.substitute w, P c := by
  intro c hc
  obtain ⟨d,hd,hc⟩ := List.mem_flatMap.1 hc
  rcases r.image_cases d with hm | hs
  · exact rules _ hm c hc
  · rw [hs,List.mem_singleton] at hc
    exact hc ▸ h d hd

/-- What one pass keeps, any number of passes keeps. -/
theorem substituteTimes_induction {r : Rules} {P : Word → Prop}
    (step : ∀ w, P w → P (r.substitute w)) (n : Nat) {w : Word} (h : P w) :
    P (r.substituteTimes n w) := by
  induction n generalizing w with
  | zero => exact h
  | succ n ih => exact ih (step w h)

end Rules

namespace Derivation

theorem iterate_fst (n : Nat) (s : Derivation) :
    (iterate n s).1 = { s with
      iterations := s.iterations + n
      current := s.rules.substituteTimes n s.current } := by
  induction n generalizing s with
  | zero => rfl
  | succ n ih =>
    rw [iterate_succ,ih s.pass]
    simp only [pass,Rules.substituteTimes_succ]
    congr 1
    omega

/-- The passes are reported in order, each with its number and the length of its word. -/
theorem iterate_snd (n : Nat) (s : Derivation) :
    (iterate n s).2 = (List.range n).map fun i =>
      .pass (s.iterations + (i + 1)) (byteLength (s.rules.substituteTimes (i + 1) s.current)) := by
  induction n generalizing s with
  | zero => rfl
  | succ n ih =>
    have hshift (i : Nat) : s.iterations + 1 + (i + 1) = s.iterations + (i + 1 + 1) := by omega
    rw [iterate_succ,ih s.pass,List.range_succ_eq_map,List.map_cons,List.map_map]
    simp only [pass,passEvent,Function.comp_def,Rules.substituteTimes_succ,hshift,
      Rules.substituteTimes_zero]

end Derivation

namespace Grammar

theorem validate_eq_ok_iff {g : Grammar} : g.validate = .ok () ↔ g.start ≠ [] := by
  unfold validate
  by_cases h : g.start = []
  · simp [h]
  · simp [h]

theorem expand_of_valid {g : Grammar} (h : g.validate = .ok ()) (n : Nat) :
    g.expand n = .ok (g.rules.substituteTimes n g.start) := by
  simp only [expand,derive,Derivation.ofGrammar,h,Except.map,Derivation.iterate_fst]

end Grammar

end LSystem
