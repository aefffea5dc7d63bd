import LSystem.Word
import Mathlib.Data.List.Infix

/-!
# Depth of brackets

An opening bracket raises the depth of a word by one and a closing bracket lowers it by one. A
word is safe when none of its prefixes closes more brackets than it opens. In a safe word every
closing bracket has a match, and the brackets that are still open at its end are as many as its
depth (`length_openings`).

Matches are found by looking back, so the functions below recurse on the past of a word: its
symbols with the last one first.
-/
namespace LSystem

/-- What a symbol adds to the depth. -/
def weight (c : Symbol) : Int := if c = '[' then 1 else if c = ']' then -1 else 0

/-- The weights of all symbols together. -/
def depth : Word → Int
  | [] => 0
  | c :: w => weight c + depth w

@[simp] theorem depth_nil : depth [] = 0 := rfl

@[simp] theorem depth_cons (c : Symbol) (w : Word) : depth (c :: w) = weight c + depth w := rfl

@[simp] theorem depth_append (u v : Word) : depth (u ++ v) = depth u + depth v := by
  induction u with
  | nil => simp
  | cons c u ih => simp only [List.cons_append,depth_cons,ih,Int.add_assoc]

theorem weight_open : weight '[' = 1 := rfl

theorem weight_close : weight ']' = -1 := rfl

theorem weight_other {c : Symbol} (ho : c ≠ '[') (hc : c ≠ ']') : weight c = 0 := by
  rw [weight,if_neg ho,if_neg hc]

theorem depth_eq_count (w : Word) : depth w = (w.count '[' : Int) - w.count ']' := by
  induction w with
  | nil => rfl
  | cons c w ih =>
    rw [depth_cons,ih,List.count_cons,List.count_cons]
    by_cases ho : c = '['
    · subst ho
      rw [weight_open]
      simp only [beq_self_eq_true,if_true,show ('[' == ']') = false from rfl]
      push_cast
      omega
    · by_cases hc : c = ']'
      · subst hc
        rw [weight_close]
        simp only [beq_self_eq_true,if_true,show (']' == '[') = false from rfl]
        push_cast
        omega
      · simp [weight_other ho hc,ho,hc]

/-- No prefix closes more brackets than it opens. -/
def Safe (w : Word) : Prop := ∀ p, p <+: w → p.count ']' ≤ p.count '['

instance : DecidablePred Safe := fun w =>
  decidable_of_iff (∀ p ∈ w.inits, p.count ']' ≤ p.count '[') (by simp only [Safe,List.mem_inits])

theorem safe_iff_depth_nonneg {w : Word} : Safe w ↔ ∀ p, p <+: w → 0 ≤ depth p := by
  refine forall₂_congr fun p _ => ?_
  rw [depth_eq_count]
  omega

theorem Safe.of_prefix {p w : Word} (h : Safe w) (hp : p <+: w) : Safe p :=
  fun q hq => h q (hq.trans hp)

theorem Safe.depth_nonneg {w : Word} (h : Safe w) : 0 ≤ depth w :=
  safe_iff_depth_nonneg.1 h w (List.prefix_refl w)

theorem safe_nil : Safe [] := by
  intro p hp
  rw [List.prefix_nil.1 hp]
  exact Nat.le_refl _

/-- A prefix of a concatenation ends in the first word or reaches into the second. -/
theorem prefix_append_cases {p u v : Word} (h : p <+: u ++ v) :
    p <+: u ∨ ∃ q, q <+: v ∧ p = u ++ q := by
  rcases List.prefix_or_prefix_of_prefix h (List.prefix_append u v) with hp | ⟨q,rfl⟩
  · exact .inl hp
  · exact .inr ⟨q,(List.prefix_append_right_inj u).1 h,rfl⟩

theorem safe_append_iff {u v : Word} :
    Safe (u ++ v) ↔ Safe u ∧ ∀ q, q <+: v → 0 ≤ depth u + depth q := by
  simp only [safe_iff_depth_nonneg]
  constructor
  · intro h
    refine ⟨fun p hp => h p (hp.trans (List.prefix_append u v)),fun q hq => ?_⟩
    rw [← depth_append]
    exact h _ ((List.prefix_append_right_inj u).2 hq)
  · intro hx p hp
    rcases hx with ⟨hu,hv⟩
    rcases prefix_append_cases hp with hp | ⟨q,hq,rfl⟩
    · exact hu p hp
    · rw [depth_append]
      exact hv q hq

theorem safe_concat_iff {w : Word} {c : Symbol} :
    Safe (w ++ [c]) ↔ Safe w ∧ 0 ≤ depth (w ++ [c]) := by
  constructor
  · intro h
    exact ⟨h.of_prefix (List.prefix_append w [c]),h.depth_nonneg⟩
  · intro hx
    rcases hx with ⟨hw,hc⟩
    rw [safe_iff_depth_nonneg]
    intro p hp
    rcases List.prefix_concat_iff.1 hp with rfl | hp
    · exact hc
    · exact safe_iff_depth_nonneg.1 hw p hp

/-- The word closes one bracket too many, for the first time right after the given prefix. -/
structure OverpopsAfter (w p : Word) : Prop where
  reads : p ++ [']'] <+: w
  safe : Safe p
  exceeds : (p ++ [']']).count '[' < (p ++ [']']).count ']'

theorem count_concat_close_lt_iff {p : Word} :
    (p ++ [']']).count '[' < (p ++ [']']).count ']' ↔ depth p < 1 := by
  rw [depth_eq_count]
  simp only [List.count_append,List.count_singleton,beq_self_eq_true,if_true,
    show (']' == '[') = false from rfl,Bool.false_eq_true,if_false]
  omega

theorem OverpopsAfter.not_safe {w p : Word} (h : OverpopsAfter w p) : ¬Safe w :=
  fun hw => absurd (hw _ h.reads) (Nat.not_le.2 h.exceeds)

theorem OverpopsAfter.append {w p : Word} (h : OverpopsAfter w p) (more : Word) :
    OverpopsAfter (w ++ more) p :=
  ⟨h.reads.trans (List.prefix_append w more),h.safe,h.exceeds⟩

/-- Among the brackets that close too much there is a first one. -/
theorem exists_overpopsAfter {w : Word} (h : ¬Safe w) : ∃ p, OverpopsAfter w p := by
  induction w using List.reverseRecOn with
  | nil => exact absurd safe_nil h
  | append_singleton w c ih =>
    by_cases hw : Safe w
    · have hdepth := hw.depth_nonneg
      have hless : depth (w ++ [c]) < 0 := by
        by_contra hc
        exact h (safe_concat_iff.2 ⟨hw,by omega⟩)
      rw [depth_append,depth_cons,depth_nil] at hless
      by_cases ho : c = '['
      · rw [ho,weight_open] at hless
        omega
      · by_cases hc : c = ']'
        · subst hc
          rw [weight_close] at hless
          exact ⟨w,List.prefix_refl _,hw,count_concat_close_lt_iff.2 (by omega)⟩
        · rw [weight_other ho hc] at hless
          omega
    · obtain ⟨p,hp⟩ := ih hw
      exact ⟨p,hp.append [c]⟩

/-- The prefixes before the brackets that are still open, the last one first. -/
def openingsOf : (past : Word) → List Word
  | [] => []
  | c :: past =>
    if c = '[' then past.reverse :: openingsOf past
    else if c = ']' then (openingsOf past).tail
    else openingsOf past

def openings (w : Word) : List Word := openingsOf w.reverse

/-- The prefix before the bracket that is matched from the end, once `inner` more are passed over.
-/
def matchFrom : (inner : Nat) → (past : Word) → Word
  | _, [] => []
  | inner, c :: past =>
    if c = ']' then matchFrom (inner + 1) past
    else if c = '[' then
      match inner with
      | 0 => past.reverse
      | inner + 1 => matchFrom inner past
    else matchFrom inner past

/-- The prefix of a word that ends just before the bracket which a `]` after the word matches. -/
def beforeMatch (w : Word) : Word := matchFrom 0 w.reverse

@[simp] theorem openings_nil : openings [] = [] := rfl

@[simp] theorem openings_concat_open (w : Word) : openings (w ++ ['[']) = w :: openings w := by
  simp [openings,openingsOf]

@[simp] theorem openings_concat_close (w : Word) : openings (w ++ [']']) = (openings w).tail := by
  simp [openings,openingsOf]

theorem openings_concat_other {c : Symbol} (w : Word) (ho : c ≠ '[') (hc : c ≠ ']') :
    openings (w ++ [c]) = openings w := by
  simp [openings,openingsOf,ho,hc]

theorem length_matchFrom_le (inner : Nat) (past : Word) :
    (matchFrom inner past).length ≤ past.length := by
  induction past generalizing inner with
  | nil => rw [matchFrom]
  | cons c past ih =>
    have h₀ := ih inner
    have h₁ := ih (inner + 1)
    have h₂ := ih (inner - 1)
    unfold matchFrom
    rw [List.length_cons]
    split_ifs
    · omega
    · cases inner with
      | zero => simp only [List.length_reverse]; omega
      | succ inner => simp only [Nat.add_sub_cancel] at h₂ ⊢; omega
    · omega

/-- As many brackets are open as the depth says. -/
theorem length_openings {w : Word} (h : Safe w) : ((openings w).length : Int) = depth w := by
  induction w using List.reverseRecOn with
  | nil => rfl
  | append_singleton w c ih =>
    obtain ⟨hw,hc⟩ := safe_concat_iff.1 h
    have hl := ih hw
    rw [depth_append,depth_cons,depth_nil] at hc ⊢
    by_cases ho : c = '['
    · subst ho
      rw [openings_concat_open,List.length_cons,weight_open]
      omega
    · by_cases hcl : c = ']'
      · subst hcl
        rw [weight_close] at hc ⊢
        rw [openings_concat_close,List.length_tail]
        omega
      · rw [openings_concat_other w ho hcl,weight_other ho hcl]
        omega

/-- Counting inner brackets finds the one that is open at that place. -/
theorem matchFrom_eq_of_openingsOf {past q : Word} {inner : Nat}
    (h : (openingsOf past)[inner]? = some q) : matchFrom inner past = q := by
  induction past generalizing inner with
  | nil => exact absurd h (by simp [openingsOf])
  | cons c past ih =>
    unfold openingsOf at h
    unfold matchFrom
    by_cases hc : c = ']'
    · subst hc
      rw [if_neg (by decide),if_pos rfl,List.getElem?_tail] at h
      rw [if_pos rfl]
      exact ih h
    · rw [if_neg hc] at h ⊢
      by_cases ho : c = '['
      · rw [if_pos ho] at h ⊢
        cases inner with
        | zero => simpa using h
        | succ inner => exact ih (by simpa using h)
      · rw [if_neg ho] at h ⊢
        exact ih h

/-- A `]` matches the bracket that was opened last and is still open. -/
theorem beforeMatch_of_openings {w q : Word} {rest : List Word} (h : openings w = q :: rest) :
    beforeMatch w = q := by
  apply matchFrom_eq_of_openingsOf
  rw [show openingsOf w.reverse = q :: rest from h]
  rfl

/-- After a bracket that is still open the word is safe, and as deep as brackets were opened later. -/
theorem eq_append_of_openings {w q : Word} {i : Nat} (h : (openings w)[i]? = some q) :
    ∃ v, Safe v ∧ depth v = i ∧ w = q ++ '[' :: v := by
  induction w using List.reverseRecOn generalizing i with
  | nil => exact absurd h (by simp)
  | append_singleton w c ih =>
    have more {j : Nat} (hj : (openings w)[j]? = some q) (hd : (j : Int) + weight c = i) :
        ∃ v, Safe v ∧ depth v = i ∧ w ++ [c] = q ++ '[' :: v := by
      obtain ⟨v,hv,hdepth,rfl⟩ := ih hj
      have hnext : depth (v ++ [c]) = i := by
        rw [depth_append,depth_cons,depth_nil,hdepth]
        omega
      exact ⟨v ++ [c],safe_concat_iff.2 ⟨hv,by omega⟩,hnext,by simp⟩
    by_cases ho : c = '['
    · subst ho
      rw [openings_concat_open] at h
      cases i with
      | zero =>
        obtain rfl := Option.some.inj h
        exact ⟨[],safe_nil,rfl,rfl⟩
      | succ i =>
        rw [List.getElem?_cons_succ] at h
        exact more h (by rw [weight_open]; rfl)
    · by_cases hc : c = ']'
      · subst hc
        rw [openings_concat_close,List.getElem?_tail] at h
        exact more h (by rw [weight_close]; omega)
      · rw [openings_concat_other w ho hc] at h
        exact more h (by rw [weight_other ho hc]; omega)

/-- What is inside a pair of brackets opens and closes nothing that is left. -/
theorem openings_append_of_balanced {u v : Word} (hv : Safe v) :
    ∃ more : List Word, openings (u ++ v) = more ++ openings u ∧ (more.length : Int) = depth v := by
  induction v using List.reverseRecOn with
  | nil => exact ⟨[],by simp,rfl⟩
  | append_singleton v c ih =>
    obtain ⟨hw,hc⟩ := safe_concat_iff.1 hv
    obtain ⟨more,he,hl⟩ := ih hw
    rw [← List.append_assoc]
    rw [depth_append,depth_cons,depth_nil] at hc ⊢
    by_cases ho : c = '['
    · subst ho
      refine ⟨(u ++ v) :: more,by rw [openings_concat_open,he,List.cons_append],?_⟩
      rw [List.length_cons,weight_open]
      omega
    · by_cases hcl : c = ']'
      · subst hcl
        rw [weight_close] at hc ⊢
        cases more with
        | nil => exact absurd hl (by simp only [List.length_nil]; omega)
        | cons q more =>
          refine ⟨more,by rw [openings_concat_close,he,List.cons_append,List.tail_cons],?_⟩
          rw [List.length_cons] at hl
          omega
      · exact ⟨more,by rw [openings_concat_other _ ho hcl,he],by
          rw [weight_other ho hcl]; omega⟩

/-- A bracket is still open just where what follows it is safe. -/
theorem mem_openings_iff {w q : Word} : q ∈ openings w ↔ ∃ v, Safe v ∧ w = q ++ '[' :: v := by
  constructor
  · intro h
    obtain ⟨i,hi⟩ := List.mem_iff_getElem?.1 h
    obtain ⟨v,hv,-,hw⟩ := eq_append_of_openings hi
    exact ⟨v,hv,hw⟩
  · intro hx
    rcases hx with ⟨v,hv,rfl⟩
    obtain ⟨more,he,-⟩ := openings_append_of_balanced (u := q ++ ['[']) hv
    rw [List.append_cons,he,openings_concat_open]
    exact List.mem_append_right more List.mem_cons_self

/-- The bracket that was opened last stands first. -/
theorem pairwise_openings (w : Word) : (openings w).Pairwise fun p q => q.length < p.length := by
  induction w using List.reverseRecOn with
  | nil => exact List.Pairwise.nil
  | append_singleton w c ih =>
    by_cases ho : c = '['
    · subst ho
      rw [openings_concat_open,List.pairwise_cons]
      refine ⟨fun q hq => ?_,ih⟩
      obtain ⟨v,-,rfl⟩ := mem_openings_iff.1 hq
      simp
    · by_cases hc : c = ']'
      · subst hc
        rw [openings_concat_close]
        exact ih.tail
      · rw [openings_concat_other w ho hc]
        exact ih

/-- After a bracket and a balanced word that bracket is the last one that is open. -/
theorem openings_append_open {u v : Word} (hv : Safe v) (hd : depth v = 0) :
    openings (u ++ '[' :: v) = u :: openings u := by
  obtain ⟨more,he,hl⟩ := openings_append_of_balanced (u := u ++ ['[']) hv
  have hm : more = [] := List.length_eq_zero_iff.1 (by omega)
  rw [List.append_cons,he,hm,List.nil_append,openings_concat_open]

/-- The match of a `]` after a bracket and a balanced word is that bracket. -/
theorem beforeMatch_balanced {u v : Word} (hv : Safe v) (hd : depth v = 0) :
    beforeMatch (u ++ '[' :: v) = u :=
  beforeMatch_of_openings (openings_append_open hv hd)

end LSystem
