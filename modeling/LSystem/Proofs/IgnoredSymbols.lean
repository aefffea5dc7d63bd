import LSystem.Proofs.Canvases

/-!
# Ignored symbols

Tracing reads a word only through its operations, and of these the ones that do nothing can be left
out. Two words with the same operations otherwise have the same polylines or fail at the same pop, each
with the bytes before it in its own spelling.
-/
namespace LSystem

/-- The symbols of a word that ask the turtle for something. -/
def obeyed (w : Word) : Word := w.filter fun c => Operation.ofSymbol c ≠ .noop

/-- The symbols of a word that ask for nothing. -/
def ignored (w : Word) : Word := w.filter fun c => Operation.ofSymbol c = .noop

/-- What a word asks for, in order. -/
def operations (w : Word) : List Operation := (obeyed w).map Operation.ofSymbol

section

variable {c : Symbol} (w : Word)

theorem obeyed_cons_noop (h : Operation.ofSymbol c = .noop) : obeyed (c :: w) = obeyed w :=
  List.filter_cons_of_neg (by simpa using h)

theorem obeyed_cons (h : Operation.ofSymbol c ≠ .noop) : obeyed (c :: w) = c :: obeyed w :=
  List.filter_cons_of_pos (by simpa using h)

theorem ignored_cons_noop (h : Operation.ofSymbol c = .noop) : ignored (c :: w) = c :: ignored w :=
  List.filter_cons_of_pos (by simpa using h)

theorem ignored_cons (h : Operation.ofSymbol c ≠ .noop) : ignored (c :: w) = ignored w :=
  List.filter_cons_of_neg (by simpa using h)

theorem operations_cons_noop (h : Operation.ofSymbol c = .noop) :
    operations (c :: w) = operations w := by
  rw [operations,obeyed_cons_noop w h,operations]

theorem operations_cons (h : Operation.ofSymbol c ≠ .noop) :
    operations (c :: w) = Operation.ofSymbol c :: operations w := by
  rw [operations,obeyed_cons w h,List.map_cons,operations]

theorem operations_obeyed : operations (obeyed w) = operations w := by
  rw [operations,operations,obeyed,obeyed,List.filter_filter]
  simp only [Bool.and_self]

theorem operations_append (u v : Word) : operations (u ++ v) = operations u ++ operations v := by
  simp only [operations,obeyed,List.filter_append,List.map_append]

/-- Every byte belongs to a symbol of one of the two kinds. -/
theorem byteLength_obeyed_add_ignored :
    byteLength (obeyed w) + byteLength (ignored w) = byteLength w := by
  induction w with
  | nil => rfl
  | cons c w ih =>
    rw [byteLength_cons,← ih]
    by_cases hc : Operation.ofSymbol c = .noop
    · rw [obeyed_cons_noop w hc,ignored_cons_noop w hc,byteLength_cons]
      omega
    · rw [obeyed_cons w hc,ignored_cons w hc,byteLength_cons]
      omega

end

/-- What a word asks for up to one operation, it asks for up to one symbol. -/
theorem exists_prefix_of_operations {w : Word} {ops : List Operation} {o : Operation}
    (h : ops ++ [o] <+: operations w) :
    ∃ p c, p ++ [c] <+: w ∧ operations p = ops ∧ Operation.ofSymbol c = o := by
  induction w generalizing ops with
  | nil => exact absurd (List.prefix_nil.1 h) (by simp)
  | cons c w ih =>
    by_cases hc : Operation.ofSymbol c = .noop
    · rw [operations_cons_noop w hc] at h
      obtain ⟨p,d,hp,ho,hd⟩ := ih h
      exact ⟨c :: p,d,(List.prefix_cons_inj c).2 hp,by rw [operations_cons_noop p hc,ho],hd⟩
    · rw [operations_cons w hc] at h
      cases ops with
      | nil =>
        obtain ⟨rfl,-⟩ := List.cons_prefix_cons.1 h
        exact ⟨[],c,⟨w,rfl⟩,rfl,rfl⟩
      | cons a ops =>
        obtain ⟨rfl,hrest⟩ := List.cons_prefix_cons.1 h
        obtain ⟨p,d,hp,ho,hd⟩ := ih hrest
        exact ⟨c :: p,d,(List.prefix_cons_inj c).2 hp,by rw [operations_cons p hc,ho],hd⟩

/-- Only the operations have a part in what becomes of a canvas. -/
theorem Canvas.follow_eq (g : Settings) (k : Canvas) (w : Word) :
    k.follow g w = (operations w).foldlM (Canvas.apply g) k := by
  induction w generalizing k with
  | nil => rfl
  | cons c w ih =>
    rw [follow_cons]
    by_cases hc : Operation.ofSymbol c = .noop
    · rw [operations_cons_noop w hc,hc,← ih]
      rfl
    · rw [operations_cons w hc,List.foldlM_cons]
      exact congrArg _ (funext ih)

namespace Settings

variable (g : Settings) {v w : Word}

theorem canvasAfter?_eq (h : operations v = operations w) : g.canvasAfter? v = g.canvasAfter? w := by
  rw [canvasAfter?,canvasAfter?,Canvas.follow_eq,Canvas.follow_eq,h]

end Settings

/-- A pop that is the first to fail is so in every other word with the same operations, since these lead
to the same canvas. -/
theorem OverpopsAfter.of_operations {v w p : Word} (h : OverpopsAfter v p)
    (heq : operations v = operations w) :
    ∃ q, OverpopsAfter w q ∧ operations p = operations q := by
  obtain ⟨⟨rest,hv⟩,k,hk,hs⟩ := (Settings.overpopsAfter_iff Settings.standard).1 h
  have hprefix : operations p ++ [.pop] <+: operations w := by
    rw [← heq,← hv,operations_append,operations_append]
    exact List.prefix_append _ _
  obtain ⟨q,c,hq,hops,hc⟩ := exists_prefix_of_operations hprefix
  obtain rfl := Operation.ofSymbol_eq_pop_iff.1 hc
  rw [← Settings.canvasAfter?_eq _ hops] at hk
  exact ⟨q,(Settings.overpopsAfter_iff Settings.standard).2 ⟨hq,k,hk,hs⟩,hops.symm⟩

theorem OverpopsAfter.obeyed {w p : Word} (h : OverpopsAfter w p) :
    OverpopsAfter (obeyed w) (obeyed p) :=
  h.filter Settings.standard rfl (Settings.canvasAfter?_eq _ (operations_obeyed p))

/-- Of two words with the same operations either both can be traced, with the same polylines, or both
fail at the same pop, which has the same operations before it. Without its ignored symbols a word is
traced as before, and where it fails only their bytes are missing from the offset. -/
theorem ignored_symbols_change_nothing (g : Settings) :
    (∀ v w, operations v = operations w →
      (∃ l, g.polylines v = .ok l ∧ g.polylines w = .ok l) ∨
      ∃ p q, OverpopsAfter v p ∧ OverpopsAfter w q ∧ operations p = operations q ∧
        g.polylines v = .error ⟨byteLength p⟩ ∧ g.polylines w = .error ⟨byteLength q⟩) ∧
    ∀ w,
      (∀ l, g.polylines w = .ok l → g.polylines (obeyed w) = .ok l) ∧
      ∀ e, g.polylines w = .error e → ∃ p f, p ++ [']'] <+: w ∧ e.offset = byteLength p ∧
        g.polylines (obeyed w) = .error f ∧ f.offset + byteLength (ignored p) = e.offset := by
  refine ⟨fun v w heq => ?_,fun w => ⟨fun l h => ?_,fun e h => ?_⟩⟩
  · cases hv : g.polylines v with
    | ok l =>
      obtain ⟨k,hk,rfl⟩ := Settings.polylines_eq_ok_iff.1 hv
      rw [g.canvasAfter?_eq heq] at hk
      exact .inl ⟨_,rfl,Settings.polylines_eq_ok_iff.2 ⟨k,hk,rfl⟩⟩
    | error e =>
      obtain ⟨p,hp,ho⟩ := Settings.overpop_of_polylines hv
      obtain ⟨q,hq,hops⟩ := hp.of_operations heq
      rw [← hv]
      exact .inr ⟨p,q,hp,hq,hops,g.polylines_of_overpop hp,g.polylines_of_overpop hq⟩
  · obtain ⟨k,hk,rfl⟩ := Settings.polylines_eq_ok_iff.1 h
    rw [← g.canvasAfter?_eq (operations_obeyed w)] at hk
    exact Settings.polylines_eq_ok_iff.2 ⟨k,hk,rfl⟩
  · obtain ⟨p,hp,ho⟩ := Settings.overpop_of_polylines h
    refine ⟨p,⟨byteLength (obeyed p)⟩,hp.reads,ho,g.polylines_of_overpop hp.obeyed,?_⟩
    rw [ho]
    exact byteLength_obeyed_add_ignored p

/-- Noise of one, two and four bytes, in words that can be traced and in words that close a bracket too
many. -/
theorem noise_changes_nothing :
    (operations ['X','F','é','+','F'] = operations ['F','+','🌿','F'] ∧
      ∃ l, Settings.standard.polylines ['X','F','é','+','F'] = .ok l ∧
        Settings.standard.polylines ['F','+','🌿','F'] = .ok l) ∧
    (operations ['é','F',']','F'] = operations ['F','🌿',' ',']','F'] ∧
      ∃ p q, operations p = operations q ∧ byteLength p = 3 ∧ byteLength q = 6 ∧
        Settings.standard.polylines ['é','F',']','F'] = .error ⟨byteLength p⟩ ∧
        Settings.standard.polylines ['F','🌿',' ',']','F'] = .error ⟨byteLength q⟩) ∧
    Settings.standard.polylines ['F','🌿',' ',']','F'] = .error ⟨6⟩ ∧
      ∃ p f, Settings.standard.polylines ['F',']','F'] = .error f ∧
        f.offset + byteLength (ignored p) = 6 := by
  have laws := ignored_symbols_change_nothing Settings.standard
  have traced : operations ['X','F','é','+','F'] = operations ['F','+','🌿','F'] := by decide
  have failing : operations ['é','F',']','F'] = operations ['F','🌿',' ',']','F'] := by decide
  have hv : Settings.standard.polylines ['é','F',']','F'] = .error ⟨3⟩ := rfl
  have hw : Settings.standard.polylines ['F','🌿',' ',']','F'] = .error ⟨6⟩ := rfl
  refine ⟨⟨traced,?_⟩,⟨failing,?_⟩,hw,?_⟩
  · rcases laws.1 _ _ traced with h | ⟨p,q,hp,-⟩
    · exact h
    · exact absurd (show Safe ['X','F','é','+','F'] by decide) hp.not_safe
  · rcases laws.1 _ _ failing with ⟨l,hl,-⟩ | ⟨p,q,-,-,hops,hep,heq⟩
    · rw [hv] at hl
      exact absurd hl (by simp)
    · refine ⟨p,q,hops,?_,?_,hep,heq⟩
      · rw [hv] at hep
        exact (congrArg UnbalancedPop.offset (Except.error.inj hep)).symm
      · rw [hw] at heq
        exact (congrArg UnbalancedPop.offset (Except.error.inj heq)).symm
  · obtain ⟨p,f,-,-,hf,hsum⟩ := (laws.2 _).2 _ hw
    exact ⟨p,f,hf,hsum⟩

end LSystem
