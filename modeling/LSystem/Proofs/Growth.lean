import LSystem.Proofs.Expansion
import Mathlib.Algebra.BigOperators.Group.Finset.Basic
import Mathlib.Data.Fintype.EquivFin
import Mathlib.Data.Matrix.Mul

/-!
# Growth

Row `c` of the growth matrix counts the symbols that one pass puts in the place of `c`. A pass
multiplies the counts of a word by this matrix, so after any number of passes the counts, and with
them the lengths of words, are given by its powers. There are finitely many symbols, and all of
them are rows, also those that no word of the grammar holds.
-/
namespace LSystem

theorem symbol_lt (c : Symbol) : c.toNat < 0x110000 := by
  have h := c.valid
  simp only [UInt32.isValidChar,Nat.isValidChar] at h
  have hval : c.toNat = c.val.toNat := rfl
  omega

noncomputable instance : Fintype Symbol :=
  Fintype.ofInjective (fun c : Symbol => (⟨c.toNat,symbol_lt c⟩ : Fin 0x110000))
    fun _ _ h => Char.toNat_inj.1 (Fin.mk.inj h)

/-- Equal symbols of a word contribute alike to a sum over it. -/
theorem sum_map_eq_sum_count (w : Word) (f : Symbol → ℕ) :
    (w.map f).sum = ∑ c, w.count c * f c := by
  simp only [Finset.sum_list_map_count,smul_eq_mul]
  apply Finset.sum_subset (Finset.subset_univ _)
  intro c _ hc
  rw [List.count_eq_zero_of_not_mem fun h => hc (List.mem_toFinset.2 h),Nat.zero_mul]

theorem length_eq_sum_count (w : Word) : w.length = ∑ a, w.count a := by
  have h := sum_map_eq_sum_count w fun _ => 1
  simpa using h

theorem byteLength_eq_sum_map (w : Word) : byteLength w = (w.map Char.utf8Size).sum := by
  induction w with
  | nil => rfl
  | cons c w ih => rw [byteLength_cons,ih,List.map_cons,List.sum_cons]

theorem byteLength_eq_sum_count (w : Word) : byteLength w = ∑ a, a.utf8Size * w.count a := by
  simp only [byteLength_eq_sum_map,sum_map_eq_sum_count,Nat.mul_comm]

namespace Rules

/-- How often the second symbol stands in the replacement of the first. A symbol without a rule
stands for itself. -/
def growth (r : Rules) : Matrix Symbol Symbol ℕ :=
  Matrix.of fun c a => match r.find? c with
    | some w => w.count a
    | none => if a = c then 1 else 0

theorem growth_apply (r : Rules) (c a : Symbol) : r.growth c a = (r.image c).count a := by
  unfold growth image
  rw [Matrix.of_apply]
  cases r.find? c with
  | some w => rfl
  | none => simp [List.count_singleton',eq_comm]

theorem vecMul_growth (r : Rules) (w : Word) :
    Matrix.vecMul (w.count ·) r.growth = ((r.substitute w).count ·) := by
  funext a
  rw [substitute,List.count_flatMap,sum_map_eq_sum_count]
  simp only [Matrix.vecMul,dotProduct,growth_apply,Function.comp_apply]

/-- Each pass multiplies the counts once more. -/
theorem vecMul_growth_pow (r : Rules) (n : ℕ) (w : Word) :
    Matrix.vecMul (w.count ·) (r.growth ^ n) = ((r.substituteTimes n w).count ·) := by
  induction n with
  | zero => rw [pow_zero,Matrix.vecMul_one,substituteTimes_zero]
  | succ n ih => rw [pow_succ,← Matrix.vecMul_vecMul,ih,vecMul_growth,substituteTimes_succ']

end Rules

namespace Grammar

/-- How often a symbol stands in the start word after the given number of passes, by the growth
matrix. -/
noncomputable def growthCount (g : Grammar) (n : ℕ) (a : Symbol) : ℕ :=
  ∑ c, g.start.count c * (g.rules.growth ^ n) c a

theorem count_substituteTimes (g : Grammar) (n : ℕ) (a : Symbol) :
    (g.rules.substituteTimes n g.start).count a = g.growthCount n a :=
  (congrFun (g.rules.vecMul_growth_pow n g.start) a).symm

/-- The passes of a valid grammar are reported in order, each with its number and the length of its
word. -/
theorem derive_of_valid {g : Grammar} (h : g.validate = .ok ()) (m : ℕ) :
    ∃ s, g.derive m = .ok (s,(List.range m).map fun i =>
      .pass (i + 1) (byteLength (g.rules.substituteTimes (i + 1) g.start))) := by
  have hevents := Derivation.iterate_snd m ⟨g.start,g.rules,0,g.start⟩
  simp only [Nat.zero_add] at hevents
  refine ⟨(Derivation.iterate m ⟨g.start,g.rules,0,g.start⟩).1,?_⟩
  rw [← hevents]
  simp only [derive,Derivation.ofGrammar,h,Except.map]

end Grammar

/-- The symbols of the word after any number of passes are as many as the power of the growth
matrix says, and so is the length that is reported of the pass. -/
theorem counts_follow_growth {g : Grammar} (valid : g.validate = .ok ()) (n : ℕ) :
    (∃ w, g.expand n = .ok w ∧ (∀ a, w.count a = g.growthCount n a) ∧
      w.length = ∑ a, g.growthCount n a ∧
      byteLength w = ∑ a, a.utf8Size * g.growthCount n a) ∧
    ∀ m, 0 < n → n ≤ m → ∃ s events, g.derive m = .ok (s,events) ∧
      events[n - 1]? = some (.pass n (∑ a, a.utf8Size * g.growthCount n a)) := by
  have hlength : byteLength (g.rules.substituteTimes n g.start) =
      ∑ a, a.utf8Size * g.growthCount n a := by
    simp only [byteLength_eq_sum_count,g.count_substituteTimes]
  constructor
  · refine ⟨_,Grammar.expand_of_valid valid n,g.count_substituteTimes n,?_,hlength⟩
    simp only [length_eq_sum_count,g.count_substituteTimes]
  · intro m hpos hle
    obtain ⟨s,hs⟩ := Grammar.derive_of_valid valid m
    refine ⟨s,_,hs,?_⟩
    have hlt : n - 1 < m := by omega
    have hn : n - 1 + 1 = n := by omega
    simp only [List.getElem?_map,List.getElem?_range hlt,Option.map_some,hn,hlength]

/-- A curve in which a rule erases its symbol and another has a symbol of four bytes. -/
def wideCurve : Grammar := Grammar.ofRules ['F','X'] [('F',['F','🌿','F']),('X',[])]

theorem wideCurve_follows_growth :
    wideCurve.validate = .ok () ∧
      (∃ w, wideCurve.expand 3 = .ok w ∧ (∀ a, w.count a = wideCurve.growthCount 3 a) ∧
        w.length = ∑ a, wideCurve.growthCount 3 a ∧
        byteLength w = ∑ a, a.utf8Size * wideCurve.growthCount 3 a) ∧
      wideCurve.growthCount 3 'F' = 8 ∧
      ∑ a, a.utf8Size * wideCurve.growthCount 3 a = 36 := by
  have valid : wideCurve.validate = .ok () := rfl
  have h := (counts_follow_growth valid 3).1
  refine ⟨valid,h,?_,?_⟩
  · obtain ⟨w,hw,hcount,_⟩ := h
    rw [← hcount,← Except.ok.inj hw]
    decide
  · obtain ⟨w,hw,_,_,hbytes⟩ := h
    rw [← hbytes,← Except.ok.inj hw]
    decide

end LSystem
