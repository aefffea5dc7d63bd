import LSystem.Proofs.Expansion
import LSystem.Proofs.Strokes
import Mathlib.Algebra.Order.BigOperators.Group.List
import Mathlib.Algebra.Order.Ring.Nat

/-!
# Draws and points

A draw adds one point to the open polyline, and every polyline has one point more, that where it
begins. Polylines without a draw are dropped, so a drawing has as many points as its word has draws
and, besides, one for each polyline. How many points a polyline has is a matter of the word alone
(`map_length_strokes`).

A pass replaces symbols one by one, so the draws of the word after some passes are a sum over the
symbols of the start word (`Rules.sum_draws`).
-/
namespace LSystem

/-- The number of symbols that draw. -/
def drawCount (w : Word) : ℕ := w.countP fun c => Operation.ofSymbol c = .draw

@[simp] theorem drawCount_nil : drawCount [] = 0 := rfl

theorem drawCount_cons (c : Symbol) (w : Word) :
    drawCount (c :: w) = (if Operation.ofSymbol c = .draw then 1 else 0) + drawCount w := by
  rw [drawCount,List.countP_cons,Nat.add_comm]
  simp only [decide_eq_true_eq]
  rfl

/-- A symbol that ends a polyline does not draw. -/
theorem not_draw_of_cuts {c : Symbol} (h : cuts c = true) : Operation.ofSymbol c ≠ .draw := by
  intro hd
  rw [cuts,hd] at h
  exact absurd h (by decide)

/-- Every draw stands between two cuts. -/
theorem sum_drawCount_splitOnP (w : Word) :
    ((w.splitOnP cuts).map drawCount).sum = drawCount w := by
  induction w with
  | nil => rfl
  | cons c w ih =>
    rw [List.splitOnP_cons_eq_if_modifyHead,drawCount_cons,← ih]
    by_cases hc : cuts c = true
    · rw [if_pos hc,if_neg (not_draw_of_cuts hc),List.map_cons,List.sum_cons]
      rfl
    · rw [if_neg hc]
      cases hs : w.splitOnP cuts with
      | nil => exact absurd hs (List.splitOnP_ne_nil _ _)
      | cons s rest =>
        simp only [List.modifyHead_cons,List.map_cons,List.sum_cons,drawCount_cons,Nat.add_assoc]

/-- The draws of each polyline of a word. -/
def lineDraws (w : Word) : List ℕ := ((w.splitOnP cuts).map drawCount).filter (0 < ·)

theorem sum_filter_pos (l : List ℕ) : (l.filter (0 < ·)).sum = l.sum := by
  induction l with
  | nil => rfl
  | cons n l ih =>
    rcases Nat.eq_zero_or_pos n with rfl | h
    · simpa using ih
    · simp [h,ih]

theorem sum_lineDraws (w : Word) : (lineDraws w).sum = drawCount w := by
  rw [lineDraws,sum_filter_pos,sum_drawCount_splitOnP]

theorem lineDraws_eq_nil_iff (w : Word) : lineDraws w = [] ↔ drawCount w = 0 := by
  rw [← sum_drawCount_splitOnP,List.sum_eq_zero_iff,lineDraws,List.filter_eq_nil_iff]
  simp only [decide_eq_true_eq,Nat.not_lt,Nat.le_zero_eq]

/-- A word without a cut has at most one polyline. -/
theorem lineDraws_of_uncut {w : Word} (h : ∀ c ∈ w, cuts c = false) :
    lineDraws w = if drawCount w = 0 then [] else [drawCount w] := by
  rw [lineDraws,List.splitOnP_eq_singleton h,List.map_singleton,List.filter_singleton]
  by_cases hd : drawCount w = 0
  · simp [hd]
  · simp [hd,Nat.pos_of_ne_zero hd]

theorem sum_map_add_one (l : List ℕ) : (l.map (· + 1)).sum = l.length + l.sum := by
  induction l with
  | nil => rfl
  | cons n l ih =>
    simp only [List.map_cons,List.sum_cons,List.length_cons,ih]
    omega

namespace Settings

variable (g : Settings)

theorem length_drawn (before symbols : Word) :
    (g.drawn before symbols).length = drawCount symbols := by
  induction symbols generalizing before with
  | nil => rfl
  | cons c symbols ih =>
    rw [drawn,drawCount_cons]
    by_cases hc : Operation.ofSymbol c = .draw
    · rw [if_pos hc,if_pos hc,List.length_cons,ih,Nat.add_comm]
    · rw [if_neg hc,if_neg hc,ih,Nat.zero_add]

theorem length_stroke (p : Piece) : (g.stroke p).length = drawCount p.symbols + 1 := by
  rw [stroke,List.length_cons,length_drawn]

/-- The settings have no part in how many polylines there are and how long they are. -/
theorem map_length_strokes (w : Word) :
    (g.strokes w).map List.length = (lineDraws w).map (· + 1) := by
  rw [strokes,lineDraws,← map_symbols_pieces]
  induction pieces w with
  | nil => rfl
  | cons p rest ih =>
    have hlength := g.length_stroke p
    simp only [List.map_cons,List.filter_cons,hlength]
    by_cases hp : 0 < drawCount p.symbols
    · have hline : 2 ≤ drawCount p.symbols + 1 := by omega
      simp only [hp,hline,decide_true,if_true,List.map_cons,ih,hlength]
    · have hline : ¬2 ≤ drawCount p.symbols + 1 := by omega
      simp only [hp,hline,decide_false,Bool.false_eq_true,if_false,ih]

theorem strokes_eq_nil_iff (w : Word) : g.strokes w = [] ↔ drawCount w = 0 := by
  rw [← lineDraws_eq_nil_iff,← List.map_eq_nil_iff (f := List.length),map_length_strokes,
    List.map_eq_nil_iff]

theorem polylines_eq_ok {w : Word} {l : List Polyline} (h : g.polylines w = .ok l) :
    l = g.strokes w := by
  obtain ⟨t,ht⟩ := Tracing.run_of_safe g (safe_of_polylines h)
  rw [polylines_of_run ht,(Tracing.shows_of_run ht).polylines] at h
  exact (Except.ok.inj h).symm

theorem draw_eq_ok_iff {w : Word} {d : Drawing} :
    g.draw w = .ok d ↔ ∃ l, g.polylines w = .ok l ∧ d = Drawing.ofPolylines l := by
  rw [draw]
  cases g.polylines w with
  | ok l => simp [Except.map,eq_comm]
  | error e => simp [Except.map]

end Settings

namespace Drawing

theorem pointCount_eq_sum (d : Drawing) : d.pointCount = (d.polylines.map List.length).sum :=
  List.length_flatten

/-- Computed bounds are there just where there is a point. -/
theorem bounds_ofPolylines_eq_none_iff (l : List Polyline) :
    (ofPolylines l).bounds = none ↔ (ofPolylines l).pointCount = 0 := by
  rw [pointCount,List.length_eq_zero_iff]
  exact Bounds.ofPoints?_eq_none_iff l.flatten

end Drawing

/-- A drawing that has, for each polyline, one point more than the given number of draws. -/
structure Drawing.HasDraws (d : Drawing) (draws : ℕ) : Prop where
  points : d.pointCount = d.polylines.length + draws
  lines : ∀ l ∈ d.polylines, 2 ≤ l.length
  bounds : d.bounds = none ↔ draws = 0
  empty : d.isEmpty = true ↔ draws = 0

/-- What is drawn of a word has the draws of the word. -/
theorem Settings.hasDraws_of_draw {g : Settings} {w : Word} {d : Drawing}
    (h : g.draw w = .ok d) : d.HasDraws (drawCount w) := by
  obtain ⟨l,hl,rfl⟩ := g.draw_eq_ok_iff.1 h
  obtain rfl := g.polylines_eq_ok hl
  have hlength := g.map_length_strokes w
  have hcount : (g.strokes w).length = (lineDraws w).length := by
    rw [← List.length_map (f := List.length),hlength,List.length_map]
  have hpoints : (Drawing.ofPolylines (g.strokes w)).pointCount =
      (g.strokes w).length + drawCount w := by
    rw [Drawing.pointCount_eq_sum]
    change ((g.strokes w).map List.length).sum = _
    rw [hlength,sum_map_add_one,sum_lineDraws,hcount]
  constructor
  case points => exact hpoints
  case lines => exact fun l hm => of_decide_eq_true (List.mem_filter.1 hm).2
  case bounds =>
    rw [Drawing.bounds_ofPolylines_eq_none_iff,hpoints,Nat.add_eq_zero_iff,List.length_eq_zero_iff,
      g.strokes_eq_nil_iff,and_self]
  case empty => rw [← g.strokes_eq_nil_iff,← List.isEmpty_iff]; rfl

/-- Under any settings there are the same polylines but for the places of their points. -/
theorem Settings.map_length_of_draw {g : Settings} {w : Word} {d : Drawing}
    (h : g.draw w = .ok d) : d.polylines.map List.length = (lineDraws w).map (· + 1) := by
  obtain ⟨l,hl,rfl⟩ := g.draw_eq_ok_iff.1 h
  obtain rfl := g.polylines_eq_ok hl
  exact g.map_length_strokes w

theorem Settings.draw_of_safe (g : Settings) {w : Word} (h : Safe w) : ∃ d, g.draw w = .ok d := by
  obtain ⟨l,hl⟩ := g.polylines_of_safe h
  exact ⟨_,g.draw_eq_ok_iff.2 ⟨l,hl,rfl⟩⟩

theorem Settings.safe_of_draw {g : Settings} {w : Word} {d : Drawing} (h : g.draw w = .ok d) :
    Safe w := by
  obtain ⟨l,hl,_⟩ := g.draw_eq_ok_iff.1 h
  exact safe_of_polylines hl

namespace Rules

/-- The draws that a symbol comes to in the given number of passes. -/
def draws (r : Rules) : ℕ → Symbol → ℕ
  | 0, c => if Operation.ofSymbol c = .draw then 1 else 0
  | n + 1, c =>
    match r.find? c with
    | some w => (w.map (r.draws n)).sum
    | none => r.draws n c

theorem draws_succ (r : Rules) (n : ℕ) (c : Symbol) :
    r.draws (n + 1) c = ((r.image c).map (r.draws n)).sum := by
  rw [draws,image]
  cases r.find? c with
  | some w => rfl
  | none => simp

theorem sum_draws_substitute (r : Rules) (n : ℕ) (w : Word) :
    (w.map (r.draws (n + 1))).sum = ((r.substitute w).map (r.draws n)).sum := by
  induction w with
  | nil => rfl
  | cons c w ih =>
    rw [List.map_cons,List.sum_cons,ih,substitute_cons,List.map_append,List.sum_append,draws_succ]

/-- What the symbols of a word come to are the draws of the word that it comes to. -/
theorem sum_draws (r : Rules) (n : ℕ) (w : Word) :
    (w.map (r.draws n)).sum = drawCount (r.substituteTimes n w) := by
  induction n generalizing w with
  | zero =>
    induction w with
    | nil => rfl
    | cons c w ih =>
      rw [substituteTimes_zero] at ih ⊢
      rw [List.map_cons,List.sum_cons,ih,drawCount_cons]
      rfl
  | succ n ih => rw [sum_draws_substitute,ih,substituteTimes_succ]

end Rules

/-- The draws that the start word comes to in the given number of passes. -/
def Grammar.draws (g : Grammar) (n : ℕ) : ℕ := (g.start.map (g.rules.draws n)).sum

/-- No symbol of the word moves the turtle without drawing or returns it to a saved pose. -/
def Unbroken (w : Word) : Prop :=
  ∀ c ∈ w, Operation.ofSymbol c ≠ .move ∧ Operation.ofSymbol c ≠ .pop

instance : DecidablePred Unbroken := fun w => List.decidableBAll _ w

theorem cuts_eq_false_iff {c : Symbol} :
    cuts c = false ↔ Operation.ofSymbol c ≠ .move ∧ Operation.ofSymbol c ≠ .pop := by
  rw [cuts]
  cases Operation.ofSymbol c <;> simp [Operation.ends]

theorem unbroken_iff {w : Word} : Unbroken w ↔ ∀ c ∈ w, cuts c = false :=
  forall₂_congr fun _ _ => cuts_eq_false_iff.symm

theorem Unbroken.safe {w : Word} (h : Unbroken w) : Safe w := by
  intro p hp
  have hnot : ']' ∉ p := fun hm => (h ']' (hp.subset hm)).2 rfl
  rw [List.count_eq_zero_of_not_mem hnot]
  exact Nat.zero_le _

/-- What is drawn of a word of a grammar has the draws that the start word comes to, in polylines
whose lengths do not depend on the settings. Where nothing ends a polyline there is only one. -/
theorem points_follow_draws {g : Grammar} (valid : g.validate = .ok ()) (n : ℕ) :
    ∃ w, g.expand n = .ok w ∧
      (∀ (s : Settings) (d : Drawing), s.draw w = .ok d → d.HasDraws (g.draws n) ∧
        ∀ t : Settings, ∃ e, t.draw w = .ok e ∧
          e.polylines.map List.length = d.polylines.map List.length) ∧
      ((Unbroken g.start ∧ ∀ e ∈ g.rules.entries, Unbroken e.2) → ∀ s : Settings,
        ∃ d, s.draw w = .ok d ∧
          d.polylines.map List.length = if g.draws n = 0 then [] else [g.draws n + 1]) := by
  refine ⟨_,Grammar.expand_of_valid valid n,?_,?_⟩
  · intro s d hd
    refine ⟨?_,fun t => ?_⟩
    · rw [Grammar.draws,Rules.sum_draws]
      exact Settings.hasDraws_of_draw hd
    · obtain ⟨e,he⟩ := t.draw_of_safe (Settings.safe_of_draw hd)
      exact ⟨e,he,(Settings.map_length_of_draw he).trans (Settings.map_length_of_draw hd).symm⟩
  · intro hx s
    rcases hx with ⟨start,rules⟩
    have unbroken : Unbroken (g.rules.substituteTimes n g.start) :=
      Rules.substituteTimes_induction (P := Unbroken)
        (fun w hw => Rules.forall_mem_substitute rules hw) n start
    obtain ⟨d,hd⟩ := s.draw_of_safe unbroken.safe
    refine ⟨d,hd,?_⟩
    rw [Settings.map_length_of_draw hd,lineDraws_of_uncut (unbroken_iff.1 unbroken),Grammar.draws,
      Rules.sum_draws]
    split <;> rfl

/-- A stroke that comes apart, with a move, a branch and at the end a polyline that is dropped. -/
def dashes : Grammar := Grammar.ofRules ['F'] [('F',['F','f','[','F',']','f'])]

/-- A stroke that only bends. -/
def zigzag : Grammar := Grammar.ofRules ['F'] [('F',['F','+','F'])]

theorem dashes_and_zigzag_points :
    (dashes.validate = .ok () ∧ ∃ w d, dashes.expand 1 = .ok w ∧
      Settings.standard.draw w = .ok d ∧ d.HasDraws 2) ∧
    (zigzag.validate = .ok () ∧ Unbroken zigzag.start ∧
      (∀ e ∈ zigzag.rules.entries, Unbroken e.2) ∧
      ∃ w d, zigzag.expand 2 = .ok w ∧ Settings.standard.draw w = .ok d ∧
        d.polylines.map List.length = [5]) := by
  constructor
  · have valid : dashes.validate = .ok () := rfl
    obtain ⟨w,hw,hdraws,_⟩ := points_follow_draws valid 1
    have hsafe : Safe w := by
      rw [← Except.ok.inj hw]
      decide
    obtain ⟨d,hd⟩ := Settings.standard.draw_of_safe hsafe
    exact ⟨valid,w,d,hw,hd,(hdraws _ d hd).1⟩
  · have valid : zigzag.validate = .ok () := rfl
    have start : Unbroken zigzag.start := by decide
    have rules : ∀ e ∈ zigzag.rules.entries, Unbroken e.2 := by decide
    obtain ⟨w,hw,_,hone⟩ := points_follow_draws valid 2
    obtain ⟨d,hd,hlength⟩ := hone ⟨start,rules⟩ Settings.standard
    exact ⟨valid,start,rules,w,d,hw,hd,hlength⟩

end LSystem
