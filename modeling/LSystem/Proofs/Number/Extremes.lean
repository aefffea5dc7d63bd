import LSystem.Proofs.Number.Comparison
import Mathlib.Data.List.DropRight

/-!
# Extremes of sequences of doubles

A sequence is gone through with one value in hand, which is kept only where it stands strictly before the
next one in an order. With `<` this looks for a least value and with `>` for a greatest one. Of equal
values the last is found, and since no comparison holds of an undefined value, the search starts anew
after each of these (`extreme_kept`). The order of the defined doubles enters only through a key
(`OrderedBy`), so one proof serves both searches.
-/
namespace LSystem.Number

/-- The first value where it stands before the second, and else the second. -/
def keep (r : Float → Float → Prop) [DecidableRel r] (x y : Float) : Float := if r x y then x else y

/-- The value in hand after the given ones. -/
def kept (r : Float → Float → Prop) [DecidableRel r] (x : Float) (values : List Float) : Float :=
  values.foldl (keep r) x

/-- The values after the last undefined one. -/
def sinceUndefined (values : List Float) : List Float := values.rtakeWhile fun x => !x.isNaN

/-- The last one of the values that have none before them in the order. -/
def LastOf (r : Float → Float → Prop) (values : List Float) (x : Float) : Prop :=
  ∃ earlier later, values = earlier ++ x :: later ∧ (∀ y ∈ earlier, ¬r y x) ∧ ∀ y ∈ later, r x y

/-- What the search finds. It is undefined if the sequence ends with an undefined value. Otherwise the
values after the last undefined one count, and of those that stand first in the order the last. -/
structure Extreme (r : Float → Float → Prop) (values : List Float) (x : Float) : Prop where
  undefined : ∀ last, values.getLast? = some last → last.isNaN = true → x.isNaN = true
  defined : ∀ last, values.getLast? = some last → last.isNaN = false →
    LastOf r (sinceUndefined values) x

theorem sinceUndefined_concat_undefined (values : List Float) {y : Float} (hy : y.isNaN = true) :
    sinceUndefined (values ++ [y]) = [] := by
  have hdrop : ¬(!y.isNaN) = true := by rw [hy]; decide
  exact List.rtakeWhile_concat_neg _ _ y hdrop

theorem sinceUndefined_concat (values : List Float) {y : Float} (hy : y.isNaN = false) :
    sinceUndefined (values ++ [y]) = sinceUndefined values ++ [y] := by
  have htake : (!y.isNaN) = true := by rw [hy]; rfl
  exact List.rtakeWhile_concat_pos _ _ y htake

theorem sinceUndefined_of_defined {values : List Float} (h : ∀ y ∈ values, y.isNaN = false) :
    sinceUndefined values = values := by
  refine List.rtakeWhile_eq_self_iff.2 fun y hy => ?_
  rw [h y hy]
  rfl

theorem LastOf.mem {r : Float → Float → Prop} {values : List Float} {x : Float}
    (hx : LastOf r values x) : x ∈ values := by
  obtain ⟨earlier,later,rfl,-,-⟩ := hx
  simp

/-- Where all values are defined all of them count. -/
theorem Extreme.lastOf {r : Float → Float → Prop} {values : List Float} {x : Float}
    (hx : Extreme r values x) (hne : values ≠ []) (hdef : ∀ y ∈ values, y.isNaN = false) :
    LastOf r values x := by
  have hlast := hx.defined _ (List.getLast?_eq_some_getLast hne) (hdef _ (List.getLast_mem hne))
  rwa [sinceUndefined_of_defined hdef] at hlast

theorem extreme_singleton (r : Float → Float → Prop) (x : Float) : Extreme r [x] x := by
  constructor
  case undefined =>
    intro y hy hundef
    rwa [show x = y from Option.some.inj hy]
  case defined =>
    intro y hy hdef
    rw [← show x = y from Option.some.inj hy] at hdef
    rw [sinceUndefined_of_defined (List.forall_mem_singleton.2 hdef)]
    exact ⟨[],[],rfl,by simp,by simp⟩

/-- An order that compares defined doubles by a key and says nothing of undefined ones. -/
def OrderedBy (r : Float → Float → Prop) (key : Float → ℤ) : Prop :=
  ∀ x y, r x y ↔ x.isNaN = false ∧ y.isNaN = false ∧ key x < key y

theorem lt_orderedBy : OrderedBy (· < ·) fun x => rank (isNegative x) (magnitude x) := by
  intro x y
  simp only [lt_iff,isNaN_eq_false_iff]

theorem gt_orderedBy : OrderedBy (· > ·) fun x => -rank (isNegative x) (magnitude x) := by
  intro x y
  have h := lt_orderedBy y x
  simp only [gt_iff_lt,h,Int.neg_lt_neg_iff]
  tauto

theorem LastOf.not_before {r : Float → Float → Prop} {key : Float → ℤ} (h : OrderedBy r key)
    {values : List Float} {x y : Float} (hx : LastOf r values x) (hy : y ∈ values) : ¬r y x := by
  obtain ⟨earlier,later,rfl,hearlier,hlater⟩ := hx
  intro hyx
  have hlt := ((h y x).1 hyx).2.2
  rcases List.mem_append.1 hy with hy | hy
  · exact hearlier y hy hyx
  · rcases List.mem_cons.1 hy with rfl | hy
    · omega
    · have hxy := ((h x y).1 (hlater y hy)).2.2
      omega

theorem le_of_not_lt {x y : Float} (hx : x.isNaN = false) (hy : y.isNaN = false) (h : ¬y < x) :
    x ≤ y := by
  rw [isNaN_eq_false_iff] at hx hy
  rw [lt_iff] at h
  exact le_iff.2 ⟨hx,hy,by omega⟩

section

variable {r : Float → Float → Prop} [DecidableRel r] {key : Float → ℤ} (h : OrderedBy r key)

include h

theorem keep_of_undefined {x : Float} (hx : x.isNaN = true) (y : Float) : keep r x y = y := by
  rw [keep,if_neg]
  intro hr
  rw [((h x y).1 hr).1] at hx
  exact Bool.false_ne_true hx

/-- What is in hand is undefined just where the value read last is. -/
theorem isNaN_keep (x y : Float) : (keep r x y).isNaN = y.isNaN := by
  unfold keep
  split
  · next hr =>
    obtain ⟨hx,hy,-⟩ := (h x y).1 hr
    rw [hx,hy]
  · rfl

theorem keep_assoc (x : Float) {y z : Float} (hy : y.isNaN = false) (hz : z.isNaN = false) :
    keep r (keep r x y) z = keep r x (keep r y z) := by
  have hxy := h x y
  have hyz := h y z
  have hxz := h x z
  unfold keep
  by_cases h₁ : r x y
  · rw [if_pos h₁]
    by_cases h₂ : r y z
    · have h₃ : r x z := hxz.2 ⟨(hxy.1 h₁).1,hz,(hxy.1 h₁).2.2.trans (hyz.1 h₂).2.2⟩
      rw [if_pos h₂,if_pos h₁,if_pos h₃]
    · rw [if_neg h₂]
  · rw [if_neg h₁]
    by_cases h₂ : r y z
    · rw [if_pos h₂,if_neg h₁]
    · have h₃ : ¬r x z := by
        intro hr
        obtain ⟨hx,-,hlt⟩ := hxz.1 hr
        have hle : key y ≤ key x := not_lt.1 fun hk => h₁ (hxy.2 ⟨hx,hy,hk⟩)
        exact h₂ (hyz.2 ⟨hy,hz,by omega⟩)
      rw [if_neg h₂,if_neg h₃]

/-- Values that are all defined may be gone through on their own. -/
theorem kept_append (x : Float) (values : List Float) {y : Float} {more : List Float}
    (hy : y.isNaN = false) (hmore : ∀ z ∈ more, z.isNaN = false) :
    kept r x (values ++ y :: more) = keep r (kept r x values) (kept r y more) := by
  have key (a : Float) : kept r (keep r a y) more = keep r a (kept r y more) := by
    induction more generalizing y with
    | nil => rfl
    | cons z more ih =>
      obtain ⟨hz,hmore⟩ := List.forall_mem_cons.1 hmore
      have hyz : (keep r y z).isNaN = false := by rw [isNaN_keep h,hz]
      calc kept r (keep r (keep r a y) z) more
        _ = kept r (keep r a (keep r y z)) more := by rw [keep_assoc h a hy hz]
        _ = keep r a (kept r (keep r y z) more) := ih hyz hmore
  rw [kept,List.foldl_append]
  exact key _

theorem LastOf.concat {values : List Float} {x y : Float} (hx : LastOf r values x)
    (hdef : x.isNaN = false) (hy : y.isNaN = false) : LastOf r (values ++ [y]) (keep r x y) := by
  obtain ⟨earlier,later,rfl,hearlier,hlater⟩ := hx
  unfold keep
  by_cases hr : r x y
  · rw [if_pos hr]
    refine ⟨earlier,later ++ [y],by simp,hearlier,?_⟩
    intro z hz
    rcases List.mem_append.1 hz with hz | hz
    · exact hlater z hz
    · rwa [List.mem_singleton.1 hz]
  · rw [if_neg hr]
    refine ⟨earlier ++ x :: later,[],rfl,?_,by simp⟩
    have hle : key y ≤ key x := not_lt.1 fun hk => hr ((h x y).2 ⟨hdef,hy,hk⟩)
    intro z hz hzy
    obtain ⟨hzdef,-,hlt⟩ := (h z y).1 hzy
    rcases List.mem_append.1 hz with hz | hz
    · exact hearlier z hz ((h z x).2 ⟨hzdef,hdef,by omega⟩)
    · rcases List.mem_cons.1 hz with rfl | hz
      · exact hr hzy
      · have hxz := ((h x z).1 (hlater z hz)).2.2
        omega

/-- One more value, after a sequence that has one. -/
theorem Extreme.concat {values : List Float} {x last : Float} (hx : Extreme r values x)
    (hlast : values.getLast? = some last) (hnan : x.isNaN = last.isNaN) (y : Float) :
    Extreme r (values ++ [y]) (keep r x y) := by
  have hend : (values ++ [y]).getLast? = some y := List.getLast?_concat
  constructor
  case undefined =>
    intro z hz hundef
    obtain rfl : y = z := Option.some.inj (hend.symm.trans hz)
    rw [isNaN_keep h,hundef]
  case defined =>
    intro z hz hdef
    obtain rfl : y = z := Option.some.inj (hend.symm.trans hz)
    rw [sinceUndefined_concat values hdef]
    cases hl : last.isNaN with
    | true =>
      obtain ⟨front,rfl⟩ := List.getLast?_eq_some_iff.1 hlast
      rw [keep_of_undefined h (hnan.trans hl),sinceUndefined_concat_undefined front hl]
      exact ⟨[],[],rfl,by simp,by simp⟩
    | false => exact (hx.defined last hlast hl).concat h (hnan.trans hl) hdef

theorem extreme_kept (x : Float) (values : List Float) :
    Extreme r (x :: values) (kept r x values) ∧
      ∃ last, (x :: values).getLast? = some last ∧ (kept r x values).isNaN = last.isNaN := by
  induction values using List.reverseRecOn with
  | nil => exact ⟨extreme_singleton r x,x,rfl,rfl⟩
  | append_singleton values y ih =>
    obtain ⟨hx,last,hlast,hnan⟩ := ih
    rw [kept,List.foldl_append,← kept,← List.cons_append]
    exact ⟨hx.concat h hlast hnan y,y,List.getLast?_concat,isNaN_keep h _ y⟩

end

end LSystem.Number
