import LSystem.Proofs.Expansion
import LSystem.Proofs.UnbalancedPops

/-!
# Brackets under substitution

A rule keeps the depth when its replacement never goes deeper down than its symbol does and ends
no lower. Under such rules a pass can only raise the depth of a prefix, so a safe word stays safe
through any number of passes and can then be traced. When the replacements end just where their
symbols do, as many brackets are left open as before.
-/
namespace LSystem

/-- The replacement goes no lower than the symbol, neither on the way nor at its end. -/
def KeepsDepth (c : Symbol) (w : Word) : Prop :=
  (∀ p, p <+: w → min 0 (weight c) ≤ depth p) ∧ weight c ≤ depth w

instance (c : Symbol) (w : Word) : Decidable (KeepsDepth c w) :=
  decidable_of_iff ((∀ p ∈ w.inits, min 0 (weight c) ≤ depth p) ∧ weight c ≤ depth w)
    (by simp only [KeepsDepth,List.mem_inits])

theorem keepsDepth_self (c : Symbol) : KeepsDepth c [c] := by
  refine ⟨fun p hp => ?_,by simp⟩
  rcases List.prefix_cons_iff.1 hp with rfl | ⟨q,rfl,hq⟩
  · exact Int.min_le_left 0 (weight c)
  · rw [List.prefix_nil.1 hq,depth_cons,depth_nil,Int.add_zero]
    exact Int.min_le_right 0 (weight c)

namespace Rules

/-- Every rule keeps the depth. -/
def KeepDepth (r : Rules) : Prop := ∀ e ∈ r.entries, KeepsDepth e.1 e.2

variable {r : Rules}

theorem KeepDepth.image (h : r.KeepDepth) (c : Symbol) : KeepsDepth c (r.image c) := by
  rcases r.image_cases c with hm | hs
  · exact h _ hm
  · rw [hs]
    exact keepsDepth_self c

theorem KeepDepth.depth_le (h : r.KeepDepth) (w : Word) : depth w ≤ depth (r.substitute w) := by
  induction w with
  | nil => exact Int.le_refl _
  | cons c w ih =>
    rw [substitute_cons,depth_cons,depth_append]
    exact Int.add_le_add (h.image c).2 ih

/-- One pass over a safe word gives a safe word. -/
theorem KeepDepth.safe_substitute (h : r.KeepDepth) {w : Word} (hw : Safe w) :
    Safe (r.substitute w) := by
  induction w using List.reverseRecOn with
  | nil => exact safe_nil
  | append_singleton w c ih =>
    obtain ⟨hs,hc⟩ := safe_concat_iff.1 hw
    rw [substitute_append,substitute_cons,substitute_nil,List.append_nil,safe_append_iff]
    refine ⟨ih hs,fun q hq => ?_⟩
    have hw₀ := hs.depth_nonneg
    have hle := h.depth_le w
    have hq := (h.image c).1 q hq
    rw [depth_append,depth_cons,depth_nil] at hc
    omega

theorem depth_substitute_eq (h : ∀ e ∈ r.entries, depth e.2 = weight e.1) (w : Word) :
    depth (r.substitute w) = depth w := by
  induction w with
  | nil => rfl
  | cons c w ih =>
    rw [substitute_cons,depth_cons,depth_append,ih]
    rcases r.image_cases c with hm | hs
    · rw [h _ hm]
    · rw [hs]
      simp

end Rules

/-- A safe start word under rules that keep the depth can be traced after any number of passes, and
rules that end where their symbols do leave as many brackets open as in the start word. -/
theorem expand_keeps_brackets {g : Grammar} (valid : g.validate = .ok ())
    (start : ∀ p, p <+: g.start → 0 ≤ depth p) (rules : ∀ e ∈ g.rules.entries, KeepsDepth e.1 e.2) :
    (∀ n, ∃ w, g.expand n = .ok w ∧ ∀ s : Settings, ∃ l, s.polylines w = .ok l) ∧
    ((∀ e ∈ g.rules.entries, depth e.2 = weight e.1) →
      ∀ n, ∃ w, g.expand n = .ok w ∧ (openings w).length = (openings g.start).length) := by
  have hsafe : ∀ n, Safe (g.rules.substituteTimes n g.start) := fun n =>
    Rules.substituteTimes_induction (P := Safe) (fun _ => Rules.KeepDepth.safe_substitute rules) n
      (safe_iff_depth_nonneg.2 start)
  constructor
  · intro n
    exact ⟨_,Grammar.expand_of_valid valid n,fun s => s.polylines_of_safe (hsafe n)⟩
  · intro exact_rules n
    refine ⟨_,Grammar.expand_of_valid valid n,?_⟩
    have hd : depth (g.rules.substituteTimes n g.start) = depth g.start :=
      Rules.substituteTimes_induction (P := fun w => depth w = depth g.start)
        (fun w hw => (Rules.depth_substitute_eq exact_rules w).trans hw) n rfl
    have h₁ := length_openings (hsafe n)
    have h₀ := length_openings (hsafe 0)
    rw [Rules.substituteTimes_zero] at h₀
    omega

/-- A plant, with a rule on the bracket itself. -/
def plant : Grammar :=
  Grammar.ofRules ['[','X'] [('X',['F','-','[','[','X',']','+','X',']']),('F',['F','F']),
    ('[',['[','+'])]

theorem plant_keeps_brackets :
    (plant.validate = .ok () ∧ (∀ p, p <+: plant.start → 0 ≤ depth p) ∧
      (∀ e ∈ plant.rules.entries, KeepsDepth e.1 e.2) ∧
      ∀ e ∈ plant.rules.entries, depth e.2 = weight e.1) ∧
    (∀ n, ∃ w, plant.expand n = .ok w ∧ ∀ s : Settings, ∃ l, s.polylines w = .ok l) ∧
    ∀ n, ∃ w, plant.expand n = .ok w ∧ (openings w).length = 1 := by
  have valid : plant.validate = .ok () := rfl
  have start : ∀ p, p <+: plant.start → 0 ≤ depth p := safe_iff_depth_nonneg.1 (by decide)
  have rules : ∀ e ∈ plant.rules.entries, KeepsDepth e.1 e.2 := by decide
  have exact_rules : ∀ e ∈ plant.rules.entries, depth e.2 = weight e.1 := by decide
  obtain ⟨traced,left_open⟩ := expand_keeps_brackets valid start rules
  exact ⟨⟨valid,start,rules,exact_rules⟩,traced,left_open exact_rules⟩

end LSystem
