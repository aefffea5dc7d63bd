import LSystem.Proofs.Calls

/-!
# Acceleration

Any number of passes is again a substitution, since what becomes of a word is put together from what
becomes of its symbols (`Rules.iterate_substitute_eq_flatMap`). So a table of rules can be accelerated:
there is one that makes as many passes at once (`Rules.substitute_accelerated`). It has rules for the
same symbols, and the others stay in every number of passes.
-/
namespace LSystem

namespace Rules

variable (r : Rules) (k : ℕ)

theorem iterate_substitute_append (u v : Word) :
    r.substitute^[k] (u ++ v) = r.substitute^[k] u ++ r.substitute^[k] v := by
  simp only [← substituteTimes_eq_iterate,substituteTimes_append]

/-- After some passes each symbol of a word has become a word of its own, and these stand in order. -/
theorem iterate_substitute_eq_flatMap (w : Word) :
    r.substitute^[k] w = w.flatMap fun c => r.substitute^[k] [c] := by
  induction w with
  | nil => exact Function.iterate_fixed r.substitute_nil k
  | cons c w ih =>
    rw [List.flatMap_cons,← ih,← iterate_substitute_append]
    rfl

/-- The table whose rules put for a symbol what the given number of passes makes of it. -/
def accelerated : Rules where
  entries := r.entries.map fun e => (e.1,r.substitute^[k] [e.1])
  sorted := List.pairwise_map.2 r.sorted

theorem lookup_map (f : Symbol → Word) (l : List (Symbol × Word)) (c : Symbol) :
    (l.map fun e => (e.1,f e.1)).lookup c = (l.lookup c).map fun _ => f c := by
  induction l with
  | nil => rfl
  | cons e l ih =>
    rw [List.map_cons,lookup_cons_eq_ite,lookup_cons_eq_ite]
    by_cases hc : c = e.1
    · rw [if_pos hc,if_pos hc,hc,Option.map_some]
    · rw [if_neg hc,if_neg hc,ih]

/-- The symbols with a rule are the same. -/
theorem find?_accelerated (c : Symbol) :
    (r.accelerated k).find? c = (r.find? c).map fun _ => r.substitute^[k] [c] :=
  lookup_map (fun d => r.substitute^[k] [d]) r.entries c

theorem substitute_singleton (c : Symbol) : r.substitute [c] = r.image c := List.append_nil _

/-- A symbol without a rule stays itself. -/
theorem iterate_substitute_of_find?_eq_none {c : Symbol} (h : r.find? c = none) :
    r.substitute^[k] [c] = [c] := by
  have hfixed : r.substitute [c] = [c] := by rw [substitute_singleton,image,h,Option.getD_none]
  exact Function.iterate_fixed hfixed k

theorem image_accelerated (c : Symbol) : (r.accelerated k).image c = r.substitute^[k] [c] := by
  rw [image,find?_accelerated]
  cases h : r.find? c with
  | some w => rfl
  | none => exact (r.iterate_substitute_of_find?_eq_none k h).symm

theorem substitute_accelerated (w : Word) :
    (r.accelerated k).substitute w = r.substitute^[k] w := by
  rw [iterate_substitute_eq_flatMap,substitute,funext (r.image_accelerated k)]

/-- Two rules that only swap their symbols are idle in every other pass. -/
example : ((ofList [('A',['B']),('B',['A'])]).accelerated 2).entries = [('A',['A']),('B',['B'])] := by
  decide

theorem iterate_substitute_accelerated (n : ℕ) :
    (r.accelerated k).substitute^[n] = r.substitute^[k * n] := by
  rw [funext (r.substitute_accelerated k),Function.iterate_mul]

end Rules

namespace Grammar

variable (g : Grammar)

/-- The grammar that makes the given number of passes at once. -/
def accelerated (k : ℕ) : Grammar := ⟨g.start,g.rules.accelerated k⟩

theorem expand_eq_ite (n : ℕ) :
    g.expand n =
      if g.start = [] then .error .emptyStart else .ok (g.rules.substitute^[n] g.start) := by
  by_cases h : g.start = []
  · rw [if_pos h,expand,derive,ofGrammar_eq,if_pos h]
    rfl
  · rw [if_neg h,expand_of_valid (validate_eq_ok_iff.2 h),Rules.substituteTimes_eq_iterate]

end Grammar

/-- Any number of passes makes of a word what it makes of its symbols, one after another, so the word
after more passes is put together from what they make of the symbols of the word before. A grammar
whose rules make several passes at once, and which has rules for the same symbols, derives the same
words in that many times fewer passes. -/
theorem passes_are_substitutions (g : Grammar) :
    (∀ k s t, g.rules.substitute^[k] (s ++ t) =
      g.rules.substitute^[k] s ++ g.rules.substitute^[k] t) ∧
    (∀ n m, g.expand (n + m) =
      (g.expand n).map fun w => w.flatMap fun c => g.rules.substitute^[m] [c]) ∧
    ∀ k, (g.accelerated k).start = g.start ∧
      (∀ c, (g.accelerated k).rules.find? c =
        (g.rules.find? c).map fun _ => g.rules.substitute^[k] [c]) ∧
      ∀ n, (g.accelerated k).expand n = g.expand (k * n) := by
  refine ⟨g.rules.iterate_substitute_append,fun n m => ?_,
    fun k => ⟨rfl,g.rules.find?_accelerated k,fun n => ?_⟩⟩
  · rw [g.expand_eq_ite,g.expand_eq_ite]
    by_cases h : g.start = []
    · rw [if_pos h,if_pos h]
      rfl
    · rw [if_neg h,if_neg h,Nat.add_comm,Function.iterate_add_apply,
        Rules.iterate_substitute_eq_flatMap]
      rfl
  · have hpasses : (g.accelerated k).rules.substitute^[n] = g.rules.substitute^[k * n] :=
      g.rules.iterate_substitute_accelerated k n
    rw [Grammar.expand_eq_ite,Grammar.expand_eq_ite,hpasses]
    rfl

end LSystem
