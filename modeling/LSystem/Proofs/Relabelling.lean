import LSystem.Proofs.Acceleration
import LSystem.Proofs.Canvases
import LSystem.Proofs.GrammarTexts
import Mathlib.Logic.Equiv.Basic

/-!
# Relabelled grammars

A grammar does not care what its symbols are, as long as they can be told apart. When other symbols
are put for all of them its rules may come in another order and its words take other numbers of bytes,
but each word is the relabelled word of before (`Grammar.expand_relabel`). The turtle does care, but
only for the operations. Where these are kept it draws the same, or fails at the same symbol.
-/
namespace LSystem

namespace Rules

theorem lookup_map_of_injective {p : Symbol → Symbol} (hp : Function.Injective p) (f : Word → Word)
    (l : List (Symbol × Word)) (c : Symbol) :
    (l.map fun e => (p e.1,f e.2)).lookup (p c) = (l.lookup c).map f := by
  induction l with
  | nil => rfl
  | cons e l ih =>
    rw [List.map_cons,lookup_cons_eq_ite,lookup_cons_eq_ite]
    by_cases hc : c = e.1
    · rw [if_pos (congrArg p hc),if_pos hc,Option.map_some]
    · rw [if_neg (mt (@hp c e.1) hc),if_neg hc,ih]

/-- The table with other symbols in all its rules, on both sides. -/
def relabel (p : Symbol → Symbol) (r : Rules) : Rules :=
  ofList (r.entries.map fun e => (p e.1,e.2.map p))

variable {p : Symbol → Symbol} (hp : Function.Injective p) (r : Rules)

include hp

/-- No rule is lost, whatever order the new symbols have. -/
theorem find?_relabel (c : Symbol) : (r.relabel p).find? (p c) = (r.find? c).map (List.map p) := by
  rw [relabel,find?_ofList,← List.map_reverse,lookup_map_of_injective hp,
    lookup_reverse_of_pairwise r.sorted,find?]

theorem image_relabel (c : Symbol) : (r.relabel p).image (p c) = (r.image c).map p := by
  rw [image,find?_relabel hp,image]
  cases r.find? c <;> rfl

/-- A relabelled word is substituted as the word is, and relabelled afterwards. -/
theorem substitute_relabel :
    Function.Semiconj (List.map p) r.substitute (r.relabel p).substitute := by
  intro w
  rw [substitute,substitute,List.map_flatMap,List.flatMap_map]
  exact congrArg w.flatMap (funext fun c => (r.image_relabel hp c).symm)

end Rules

namespace Grammar

def relabel (p : Symbol → Symbol) (g : Grammar) : Grammar := ⟨g.start.map p,g.rules.relabel p⟩

theorem expand_relabel {p : Symbol → Symbol} (hp : Function.Injective p) (g : Grammar) (n : ℕ) :
    (g.relabel p).expand n = (g.expand n).map (List.map p) := by
  have hstart : (g.relabel p).start = [] ↔ g.start = [] := List.map_eq_nil_iff
  rw [expand_eq_ite,expand_eq_ite]
  by_cases h : g.start = []
  · rw [if_pos h,if_pos (hstart.2 h)]
    rfl
  · have hpasses := (g.rules.substitute_relabel hp).iterate_right n
    rw [if_neg h,if_neg (mt hstart.1 h)]
    exact congrArg Except.ok (hpasses g.start).symm

/-- The symbols that a word of the grammar can have. Rules for other symbols have no part in it. -/
def symbols (g : Grammar) : Word := g.start ++ g.rules.entries.flatMap Prod.snd

theorem subset_symbols_of_expand {g : Grammar} {n : ℕ} {w : Word} (h : g.expand n = .ok w) :
    w ⊆ g.symbols := by
  rw [expand_eq_ite] at h
  split at h
  · exact absurd h (by simp)
  · obtain rfl := Except.ok.inj h
    rw [← Rules.substituteTimes_eq_iterate]
    have hrules : ∀ e ∈ g.rules.entries, ∀ c ∈ e.2, c ∈ g.symbols := by
      intro e he c hc
      exact List.mem_append_right _ (List.mem_flatMap.2 ⟨e,he,hc⟩)
    exact Rules.substituteTimes_induction (P := fun w => ∀ c ∈ w, c ∈ g.symbols)
      (fun _ hw => Rules.forall_mem_substitute hrules hw) n fun c hc => List.mem_append_left _ hc

end Grammar

/-- The map leaves the operations of a word as they are. -/
def KeepsOperations (p : Symbol → Symbol) (w : Word) : Prop :=
  ∀ c ∈ w, Operation.ofSymbol (p c) = Operation.ofSymbol c

instance (p : Symbol → Symbol) : DecidablePred (KeepsOperations p) :=
  fun w => List.decidableBAll _ w

section

variable {p : Symbol → Symbol} {w : Word}

theorem Canvas.follow_map (g : Settings) (k : Canvas) (h : KeepsOperations p w) :
    k.follow g (w.map p) = k.follow g w := by
  induction w generalizing k with
  | nil => rfl
  | cons c w ih =>
    obtain ⟨hc,hw⟩ := List.forall_mem_cons.1 h
    rw [List.map_cons,follow_cons,follow_cons,hc]
    exact congrArg _ (funext fun l => ih l hw)

theorem Settings.canvasAfter?_map (g : Settings) (h : KeepsOperations p w) :
    g.canvasAfter? (w.map p) = g.canvasAfter? w :=
  Canvas.follow_map g _ h

/-- The first bracket that closes too much stays in its place. -/
theorem OverpopsAfter.map {q : Word} (hq : OverpopsAfter w q) (h : KeepsOperations p w) :
    OverpopsAfter (w.map p) (q.map p) := by
  obtain ⟨hreads,k,hk,hs⟩ := (Settings.overpopsAfter_iff Settings.standard).1 hq
  have hread : KeepsOperations p (q ++ [']']) := fun c hc => h c (hreads.subset hc)
  obtain ⟨hbefore,hclose⟩ := List.forall_mem_append.1 hread
  have hpop : p ']' = ']' := Operation.ofSymbol_eq_pop_iff.1 (hclose ']' (List.mem_singleton_self _))
  refine (Settings.overpopsAfter_iff Settings.standard).2 ⟨?_,k,?_,hs⟩
  · have hmap := hreads.map p
    rwa [List.map_append,List.map_singleton,hpop] at hmap
  · rwa [Settings.canvasAfter?_map _ hbefore]

end

/-- Two words have the same polylines, or both fail for the first time at the same symbol, each with the
bytes before it in its own spelling. -/
def TracedAlike (g : Settings) (v w : Word) : Prop :=
  (∃ l, g.polylines v = .ok l ∧ g.polylines w = .ok l) ∨
    ∃ i, OverpopsAfter v (v.take i) ∧ OverpopsAfter w (w.take i) ∧
      g.polylines v = .error ⟨byteLength (v.take i)⟩ ∧
        g.polylines w = .error ⟨byteLength (w.take i)⟩

theorem tracedAlike_map (g : Settings) {p : Symbol → Symbol} {w : Word} (h : KeepsOperations p w) :
    TracedAlike g w (w.map p) := by
  cases hw : g.polylines w with
  | ok l =>
    exact .inl ⟨l,hw,Settings.polylines_of_same_canvas (g.canvasAfter?_map h).symm hw⟩
  | error e =>
    obtain ⟨q,hq,-⟩ := Settings.overpop_of_polylines hw
    have htake : w.take q.length = q :=
      (List.prefix_iff_eq_take.1 ((List.prefix_append q [']']).trans hq.reads)).symm
    rw [← htake] at hq
    have hmap := hq.map h
    rw [List.map_take] at hmap
    exact .inr ⟨q.length,hq,hmap,g.polylines_of_overpop hq,g.polylines_of_overpop hmap⟩

/-- Other symbols for those of a valid grammar, each of them another one, make other words of the same
shape. If they ask the turtle for the same as the symbols of a word, which are all from the start word or
a replacement, the two words are drawn alike, whatever the settings. -/
theorem relabelled_words_agree (p : Symbol → Symbol) (hp : Function.Injective p) (g : Grammar)
    (hvalid : g.validate = .ok ()) (n : ℕ) :
    ∃ w, g.expand n = .ok w ∧ (g.relabel p).expand n = .ok (w.map p) ∧ w ⊆ g.symbols ∧
      (KeepsOperations p w → ∀ s : Settings, TracedAlike s w (w.map p)) := by
  have hexpand := Grammar.expand_of_valid hvalid n
  refine ⟨_,hexpand,?_,Grammar.subset_symbols_of_expand hexpand,fun h s => tracedAlike_map s h⟩
  rw [g.expand_relabel hp,hexpand]
  rfl

/-- A grammar whose words can be traced after one pass and not after two. -/
def unravelling : Grammar := Grammar.ofRules ['X'] [('X',['X','F','~']),('~',['F',']','X'])]

/-- The first symbol gets more bytes and comes last. -/
def widened : Symbol → Symbol := Equiv.swap 'X' '🌿'

theorem unravelling_relabelled :
    Function.Injective widened ∧ unravelling.validate = .ok () ∧
      KeepsOperations widened unravelling.symbols ∧
      (unravelling.relabel widened).rules.entries =
        [('~',['F',']','🌿']),('🌿',['🌿','F','~'])] ∧
      (unravelling.relabel widened).expand 1 = .ok ['🌿','F','~'] ∧
      TracedAlike Settings.standard ['X','F','~'] ['🌿','F','~'] ∧
      (unravelling.relabel widened).expand 2 = .ok ['🌿','F','~','F','F',']','🌿'] ∧
      TracedAlike Settings.standard ['X','F','~','F','F',']','X']
        ['🌿','F','~','F','F',']','🌿'] ∧
      Settings.standard.polylines ['X','F','~','F','F',']','X'] = .error ⟨5⟩ ∧
      Settings.standard.polylines ['🌿','F','~','F','F',']','🌿'] = .error ⟨8⟩ := by
  have hinjective : Function.Injective widened := (Equiv.swap 'X' '🌿').injective
  have hvalid : unravelling.validate = .ok () := rfl
  have hkeeps : KeepsOperations widened unravelling.symbols := by decide
  have hwords := relabelled_words_agree widened hinjective unravelling hvalid
  obtain ⟨v,hv,hv',hvsymbols,hfirst⟩ := hwords 1
  obtain ⟨w,hw,hw',hwsymbols,hsecond⟩ := hwords 2
  have hone : unravelling.expand 1 = .ok ['X','F','~'] := rfl
  have htwo : unravelling.expand 2 = .ok ['X','F','~','F','F',']','X'] := rfl
  obtain rfl := Except.ok.inj (hv.symm.trans hone)
  obtain rfl := Except.ok.inj (hw.symm.trans htwo)
  have hfirstAlike := hfirst (fun c hc => hkeeps c (hvsymbols hc)) Settings.standard
  have hsecondAlike := hsecond (fun c hc => hkeeps c (hwsymbols hc)) Settings.standard
  exact ⟨hinjective,hvalid,hkeeps,rfl,hv',hfirstAlike,hw',hsecondAlike,rfl,rfl⟩

end LSystem
