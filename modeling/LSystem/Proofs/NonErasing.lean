import LSystem.Proofs.Calls

/-!
# Grammars that erase nothing

When no rule has an empty replacement every symbol leaves at least one behind, so words do not get
shorter. A pass that leaves a word as it is then has one symbol for each one before it, in the same
places, and so leaves each symbol as it is. From there on the word stays.
-/
namespace LSystem

namespace Rules

/-- No rule has an empty replacement. -/
def NonErasing (r : Rules) : Prop := ∀ e ∈ r.entries, e.2 ≠ []

instance : DecidablePred NonErasing := fun r => List.decidableBAll _ r.entries

/-- The symbol has no rule or is its own replacement. -/
def Fixes (r : Rules) (c : Symbol) : Prop := r.find? c = none ∨ r.find? c = some [c]

instance (r : Rules) : DecidablePred r.Fixes := fun _ => instDecidableOr

/-- One pass leaves each symbol of the word as it is. -/
def Settled (r : Rules) (w : Word) : Prop := ∀ c ∈ w, r.Fixes c

instance (r : Rules) : DecidablePred r.Settled := fun w => List.decidableBAll _ w

variable {r : Rules}

theorem fixes_iff {c : Symbol} : r.Fixes c ↔ r.image c = [c] := by
  unfold Fixes image
  cases r.find? c <;> simp

theorem Settled.substitute {w : Word} (h : r.Settled w) : r.substitute w = w := by
  induction w with
  | nil => rfl
  | cons c w ih =>
    obtain ⟨hc,hw⟩ := List.forall_mem_cons.1 h
    rw [substitute_cons,fixes_iff.1 hc,ih hw,List.singleton_append]

theorem substituteTimes_of_fixed {w : Word} (h : r.substitute w = w) (n : ℕ) :
    r.substituteTimes n w = w := by
  rw [substituteTimes_eq_iterate,Function.iterate_fixed h]

namespace NonErasing

variable (h : r.NonErasing)

include h

theorem length_image_pos (c : Symbol) : 0 < (r.image c).length := by
  rw [List.length_pos_iff]
  rcases r.image_cases c with hmem | himage
  · exact h _ hmem
  · rw [himage]
    exact List.cons_ne_nil c []

theorem length_le (w : Word) : w.length ≤ (r.substitute w).length := by
  induction w with
  | nil => exact le_rfl
  | cons c w ih =>
    have hc := h.length_image_pos c
    rw [substitute_cons,List.length_append,List.length_cons]
    omega

/-- Only where all symbols stay does the word stay: there is room for no more than one symbol in the
place of each. -/
theorem substitute_eq_self_iff {w : Word} : r.substitute w = w ↔ r.Settled w := by
  refine ⟨fun heq => ?_,Settled.substitute⟩
  induction w with
  | nil => exact List.forall_mem_nil _
  | cons c w ih =>
    have hlength : (r.image c).length = [c].length := by
      have hc := h.length_image_pos c
      have hw := h.length_le w
      have hall := congrArg List.length heq
      rw [substitute_cons,List.length_append,List.length_cons] at hall
      rw [List.length_singleton]
      omega
    obtain ⟨hc,hw⟩ := List.append_inj heq hlength
    exact List.forall_mem_cons.2 ⟨fixes_iff.2 hc,ih hw⟩

theorem length_le_substituteTimes (n : ℕ) (w : Word) :
    w.length ≤ (r.substituteTimes n w).length :=
  substituteTimes_induction (P := fun v => w.length ≤ v.length)
    (fun v hv => Nat.le_trans hv (h.length_le v)) n le_rfl

end NonErasing

/-- A rule that erases can take away what another one has added, and then a word stays whose symbols do
not. -/
example : (ofList [('A',['A','B']),('B',[])]).substitute ['A','B'] = ['A','B'] ∧
    ¬(ofList [('A',['A','B']),('B',[])]).Fixes 'A' := by decide

end Rules

/-- In a valid grammar that erases nothing, words never get shorter, and one is left as it is just when
each of its symbols has no rule or is its own replacement. From the first number of passes on whose word
consists of such symbols the word stays the same, and before it every pass makes another word. -/
theorem words_grow_or_stay (g : Grammar) (hvalid : g.validate = .ok ()) (h : g.rules.NonErasing) :
    (∀ s : Word, s.length ≤ (g.rules.substitute s).length) ∧
    (∀ s : Word, g.rules.substitute s = s ↔ g.rules.Settled s) ∧
    ∀ n, ∃ w, g.expand n = .ok w ∧
      (∀ m ≥ n, ∃ v, g.expand m = .ok v ∧ w.length ≤ v.length) ∧
      (g.expand (n + 1) = g.expand n ↔ g.rules.Settled w) ∧
      (g.rules.Settled w → ∀ m ≥ n, g.expand m = g.expand n) := by
  refine ⟨h.length_le,fun _ => h.substitute_eq_self_iff,fun n => ?_⟩
  have hexpand := Grammar.expand_of_valid hvalid
  refine ⟨_,hexpand n,fun m hm => ?_,?_,fun hsettled m hm => ?_⟩
  · obtain ⟨k,rfl⟩ := Nat.exists_eq_add_of_le hm
    refine ⟨_,hexpand (n + k),?_⟩
    rw [Rules.substituteTimes_add]
    exact h.length_le_substituteTimes k _
  · rw [hexpand,hexpand,Rules.substituteTimes_succ',Except.ok.injEq]
    exact h.substitute_eq_self_iff
  · obtain ⟨k,rfl⟩ := Nat.exists_eq_add_of_le hm
    rw [hexpand,hexpand,Rules.substituteTimes_add,Rules.substituteTimes_of_fixed hsettled.substitute]

/-- A grammar whose words are all the same after two passes. -/
def ripening : Grammar := Grammar.ofRules ['A','+'] [('A',['B','B']),('B',['🌿']),('🌿',['🌿'])]

theorem ripening_stays :
    ripening.validate = .ok () ∧ ripening.rules.NonErasing ∧
      ripening.expand 2 = .ok ['🌿','🌿','+'] ∧ ripening.expand 2 ≠ ripening.expand 1 ∧
        ∀ m ≥ 2, ripening.expand m = .ok ['🌿','🌿','+'] := by
  have hvalid : ripening.validate = .ok () := rfl
  have hrules : ripening.rules.NonErasing := by decide
  have htwo : ripening.expand 2 = .ok ['🌿','🌿','+'] := rfl
  obtain ⟨_,_,hwords⟩ := words_grow_or_stay ripening hvalid hrules
  obtain ⟨v,hv,_,hchange,_⟩ := hwords 1
  obtain ⟨w,hw,_,_,hstay⟩ := hwords 2
  obtain rfl := Except.ok.inj (hv.symm.trans (show ripening.expand 1 = .ok ['B','B','+'] from rfl))
  obtain rfl := Except.ok.inj (hw.symm.trans htwo)
  refine ⟨hvalid,hrules,htwo,fun heq => ?_,fun m hm => ?_⟩
  · exact absurd (hchange.1 heq) (by decide)
  · rw [hstay (by decide) m hm,htwo]

end LSystem
