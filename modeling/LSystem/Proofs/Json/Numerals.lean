import LSystem.Json.Numeral
import LSystem.Proofs.Json.Spelling
import LSystem.Proofs.Number.Doubles
import LSystem.Proofs.Number.Scaling

/-!
# Numerals of doubles

The numeral of a finite double is a spelling of itself (`spelledAs_spell`), and the digits of the
shortest decimal are all read again (`value_decimal_layOut`). So the double to which it evaluates is
finite, has the same sign and is at most four patterns away, and it is the same one as long as
coefficient and power of ten are doubles themselves (`reread_of_finite`).
-/
namespace LSystem.Json.Numeral

open Number

theorem le_ofDigitChars (n : ℕ) (digits : List Char) : n ≤ Nat.ofDigitChars 10 digits n := by
  rw [Nat.ofDigitChars_eq_ofDigitChars_zero]
  have h := Nat.le_mul_of_pos_left n (Nat.pow_pos (n := digits.length) (show 0 < 10 by decide))
  omega

/-- Digits that fit are all taken up. -/
theorem takeUp_eq {n : ℕ} {digits : List Char}
    (h : Nat.ofDigitChars 10 digits n < Nat.pow 2 64) :
    takeUp n digits = (Nat.ofDigitChars 10 digits n,[]) := by
  induction digits generalizing n with
  | nil => rfl
  | cons c digits ih =>
    rw [Nat.ofDigitChars_cons] at h ⊢
    have hlt := Nat.lt_of_le_of_lt (le_ofDigitChars _ digits) h
    rw [takeUp]
    simp only [hlt,if_true]
    exact ih h

theorem decimal_eq {n : Numeral}
    (h : Nat.ofDigitChars 10 (n.whole ++ n.fraction) 0 < Nat.pow 2 64) :
    n.decimal = ⟨Nat.ofDigitChars 10 (n.whole ++ n.fraction) 0,
      n.exponent.getD 0 - n.fraction.length⟩ := by
  rw [Nat.ofDigitChars_append] at h ⊢
  have hwhole := takeUp_eq (Nat.lt_of_le_of_lt (le_ofDigitChars _ _) h)
  have hfraction := takeUp_eq h
  simp only [decimal,hwhole,hfraction,List.length_nil,Nat.cast_zero,Int.add_zero]

theorem length_fixedDigits (width n : ℕ) : (fixedDigits width n).length = width := by
  induction width generalizing n with
  | zero => rfl
  | succ width ih => rw [fixedDigits,List.length_append,ih,List.length_singleton]

theorem ofDigitChars_fixedDigits (width n k : ℕ) :
    Nat.ofDigitChars 10 (fixedDigits width n) k = k * 10 ^ width + n % 10 ^ width := by
  induction width generalizing n with
  | zero =>
    rw [fixedDigits,Nat.ofDigitChars_nil,Nat.pow_zero,Nat.mul_one,Nat.mod_one,Nat.add_zero]
  | succ width ih =>
    have hdigit : n % 10 < 10 := Nat.mod_lt n (by decide)
    rw [fixedDigits,Nat.ofDigitChars_append,ih,
      Nat.ofDigitChars_cons_digitChar_of_lt_ten hdigit,Nat.ofDigitChars_nil,Nat.pow_succ',
      Nat.mod_mul]
    ring

theorem isDigit_of_mem_fixedDigits {width n : ℕ} {c : Char} (h : c ∈ fixedDigits width n) :
    c.isDigit = true := by
  induction width generalizing n with
  | zero => exact absurd h (by simp [fixedDigits])
  | succ width ih =>
    rw [fixedDigits,List.mem_append,List.mem_singleton] at h
    rcases h with h | rfl
    · exact ih h
    · rw [Nat.isDigit_digitChar]
      exact decide_eq_true (Nat.mod_lt n (by decide))

theorem digits_fixedDigits {width n : ℕ} (h : 0 < width) : Digits (fixedDigits width n) := by
  refine ⟨List.ne_nil_of_length_pos ?_,fun _ => isDigit_of_mem_fixedDigits⟩
  rwa [length_fixedDigits]

theorem digits_toDigits (n : ℕ) : Digits (Nat.toDigits 10 n) :=
  ⟨Nat.toDigits_ne_nil,fun _ h => Nat.isDigit_of_mem_toDigits (by decide) (by decide) h⟩

/-- Only zero has a leading zero. -/
theorem head?_toDigits {n : ℕ} (h : 0 < n) : (Nat.toDigits 10 n).head? ≠ some '0' := by
  induction n using Nat.strong_induction_on with
  | _ n ih =>
    rcases Nat.lt_or_ge n 10 with hlt | hge
    · rw [Nat.toDigits_of_lt_base hlt,List.head?_cons]
      intro heq
      have hzero := Nat.digitChar_eq_zero.1 (Option.some.inj heq)
      omega
    · rw [Nat.toDigits_of_base_le (by decide) hge,List.head?_append_of_ne_nil _ Nat.toDigits_ne_nil]
      exact ih (n / 10) (by omega) (by omega)

theorem wholePart_toDigits (n : ℕ) : WholePart (Nat.toDigits 10 n) := by
  refine ⟨digits_toDigits n,fun h => ?_⟩
  rcases Nat.eq_zero_or_pos n with rfl | hpos
  · exact Nat.toDigits_zero 10
  · exact absurd h (head?_toDigits hpos)

theorem fractionAs_spellFraction {s : List Char} (h : s = [] ∨ Digits s) :
    FractionAs s (spellFraction s) := by
  cases s with
  | nil => exact .absent
  | cons c s => exact .present (h.resolve_left (by simp))

theorem exponentAs_spellExponent (e : Option Int) : ExponentAs e (spellExponent e) := by
  cases e with
  | none => exact .absent
  | some k =>
    have hdigits := digits_toDigits k.natAbs
    have hvalue : Nat.ofDigitChars 10 (Nat.toDigits 10 k.natAbs) 0 = k.natAbs :=
      Nat.ofDigitChars_ten_toDigits
    by_cases hk : 0 ≤ k
    · have hs := ExponentAs.present (.inl rfl) .plus hdigits
      rw [exponentValue,hvalue,if_neg (by simp),Int.natAbs_of_nonneg hk] at hs
      rw [spellExponent,if_pos hk]
      exact hs
    · have hs := ExponentAs.present (.inl rfl) .minus hdigits
      rw [exponentValue,hvalue,if_pos rfl,show -(k.natAbs : ℤ) = k by omega] at hs
      rw [spellExponent,if_neg hk]
      exact hs

/-- A numeral whose parts are digits is spelled as it is written. -/
theorem spelledAs_spell {n : Numeral} (hw : WholePart n.whole)
    (hf : n.fraction = [] ∨ Digits n.fraction) : n.SpelledAs n.spell := by
  have h := SpelledAs.mk hw (fractionAs_spellFraction hf) (exponentAs_spellExponent n.exponent)
  rw [spell,List.append_assoc,List.append_assoc]
  exact h

theorem layOut_parts (range : PlainRange) (negative : Bool) (d : Decimal) :
    WholePart (layOut range negative d).whole ∧
      ((layOut range negative d).fraction = [] ∨ Digits (layOut range negative d).fraction) := by
  unfold layOut
  simp only
  split
  · split
    · refine ⟨wholePart_toDigits _,.inr ⟨by simp,?_⟩⟩
      simp
    · exact ⟨wholePart_toDigits _,.inr (digits_fixedDigits (by omega))⟩
  · have hdigits := digits_toDigits d.coefficient
    obtain ⟨c,t,ht⟩ := List.exists_cons_of_ne_nil hdigits.1
    rw [ht] at hdigits ⊢
    have hall := List.forall_mem_cons.1 hdigits.2
    refine ⟨⟨⟨by simp,?_⟩,?_⟩,?_⟩
    · simpa using hall.1
    · intro hc
      simpa using hc
    · by_cases hnil : t = []
      · exact .inl hnil
      · exact .inr ⟨hnil,hall.2⟩

theorem spelledAs_layOut (range : PlainRange) (negative : Bool) (d : Decimal) :
    (layOut range negative d).SpelledAs (layOut range negative d).spell :=
  spelledAs_spell (layOut_parts range negative d).1 (layOut_parts range negative d).2

variable {negative : Bool}

theorem decimal_whole {n : ℕ} (h : 10 * n < Nat.pow 2 64) :
    (Numeral.mk negative (Nat.toDigits 10 n) ['0'] none).decimal = ⟨10 * n,-1⟩ := by
  have hvalue : Nat.ofDigitChars 10 (Nat.toDigits 10 n ++ ['0']) 0 = 10 * n := by
    rw [Nat.ofDigitChars_append,Nat.ofDigitChars_ten_toDigits]
    rfl
  rw [decimal_eq (by rwa [hvalue]),hvalue]
  rfl

theorem decimal_point {c k : ℕ} (h : c < Nat.pow 2 64) :
    (Numeral.mk negative (Nat.toDigits 10 (c / Nat.pow 10 k)) (fixedDigits k c) none).decimal =
      ⟨c,-k⟩ := by
  have hvalue :
      Nat.ofDigitChars 10 (Nat.toDigits 10 (c / Nat.pow 10 k) ++ fixedDigits k c) 0 = c := by
    rw [Nat.ofDigitChars_append,Nat.ofDigitChars_ten_toDigits,ofDigitChars_fixedDigits]
    exact Nat.div_add_mod' c (10 ^ k)
  rw [decimal_eq (by rwa [hvalue]),hvalue,length_fixedDigits,Option.getD_none,Int.zero_sub]

theorem decimal_scientific {c : ℕ} {leading : ℤ} (h : c < Nat.pow 2 64) :
    (Numeral.mk negative ((Nat.toDigits 10 c).take 1) ((Nat.toDigits 10 c).drop 1)
      (some leading)).decimal = ⟨c,leading + 1 - (Nat.toDigits 10 c).length⟩ := by
  have hvalue :
      Nat.ofDigitChars 10 ((Nat.toDigits 10 c).take 1 ++ (Nat.toDigits 10 c).drop 1) 0 = c := by
    rw [List.take_append_drop,Nat.ofDigitChars_ten_toDigits]
  have hpos : 0 < (Nat.toDigits 10 c).length := Nat.length_toDigits_pos
  rw [decimal_eq (by rwa [hvalue]),hvalue,List.length_drop,Option.getD_some]
  congr 1
  omega

/-- A whole number that is written in plain form has at most sixteen digits. -/
theorem whole_lt {d : Decimal} (he : 0 ≤ d.exponent)
    (hplain : d.exponent + (Nat.toDigits 10 d.coefficient).length - 1 < plainRange.bound) :
    d.coefficient * Nat.pow 10 d.exponent.toNat < 10 ^ 16 := by
  have hpos : 0 < (Nat.toDigits 10 d.coefficient).length := Nat.length_toDigits_pos
  have hlt := (Nat.length_toDigits_le_iff (by decide) hpos).1 (Nat.le_refl _)
  have hbound : plainRange.bound = 16 := rfl
  calc d.coefficient * 10 ^ d.exponent.toNat
      < 10 ^ (Nat.toDigits 10 d.coefficient).length * 10 ^ d.exponent.toNat :=
        Nat.mul_lt_mul_of_pos_right hlt (Nat.pow_pos (by decide))
    _ = 10 ^ ((Nat.toDigits 10 d.coefficient).length + d.exponent.toNat) := (Nat.pow_add 10 _ _).symm
    _ ≤ 10 ^ 16 := Nat.pow_le_pow_right (by decide) (by omega)

/-- No digit of a decimal is lost, and none is left out when its numeral is read. -/
theorem value_decimal_layOut (negative : Bool) {d : Decimal} (hc : d.coefficient < Nat.pow 2 64) :
    (layOut plainRange negative d).decimal.value = d.value ∧
      (layOut plainRange negative d).decimal.coefficient < Nat.pow 2 64 := by
  unfold layOut
  simp only
  split
  · next hplain =>
    split
    · next he =>
      have hlt := whole_lt he hplain.2
      have hten : 10 * (d.coefficient * Nat.pow 10 d.exponent.toNat) < Nat.pow 2 64 := by
        simp only [Nat.pow_eq] at *
        omega
      rw [decimal_whole hten]
      refine ⟨?_,hten⟩
      rw [d.value_of_nonneg he,Decimal.value]
      simp only [Nat.pow_eq]
      push_cast
      rw [zpow_neg_one]
      field_simp
    · next he =>
      have hk : (-(-d.exponent).toNat : ℤ) = d.exponent := by omega
      rw [decimal_point hc,hk]
      exact ⟨rfl,hc⟩
  · rw [decimal_scientific hc,Int.sub_add_cancel,Int.add_sub_cancel]
    exact ⟨rfl,hc⟩

theorem layOut_negative (range : PlainRange) (d : Decimal) :
    (layOut range negative d).negative = negative := by
  unfold layOut
  simp only
  split
  · split <;> rfl
  · rfl

theorem decimal_layOut_negative (range : PlainRange) (d : Decimal) :
    (layOut range negative d).decimal = (layOut range false d).decimal := by
  unfold layOut
  simp only
  split
  · split <;> rfl
  · rfl

/-- Coefficient and power of ten of a numeral are doubles. -/
def IsExact (n : Numeral) : Prop :=
  n.decimal.coefficient ≤ 2 ^ 53 ∧ n.decimal.exponent.natAbs ≤ 22

/-- The double to which the numeral of a finite double evaluates. -/
def reread (x : Float) : Float := signed (isNegative x) (ofFinite x).decimal.toPattern

/-- The last patterns before infinity come back below it. -/
theorem toPattern_last : ∀ k < 4,
    (layOut plainRange false (shortest (infinite - 4 + k))).decimal.toPattern < infinite := by
  decide +kernel

/-- How much of a finite double is left when its numeral is read again. -/
structure Reread (x : Float) : Prop where
  isFinite : isFinite (reread x) = true
  isNegative : isNegative (reread x) = isNegative x
  dist : Nat.dist (magnitude x) (magnitude (reread x)) ≤ 4
  exact : (ofFinite x).IsExact → reread x = x

section

variable {x : Float} (hx : isFinite x = true)

include hx

theorem magnitude_lt : magnitude x < infinite := of_decide_eq_true hx

theorem roundsTo_ofFinite : RoundsTo (magnitude x) (ofFinite x).decimal.value := by
  have hlt := magnitude_lt hx
  rw [ofFinite,(value_decimal_layOut _ (coefficient_shortest_lt hlt)).1]
  exact roundsTo_shortest hlt

theorem toPattern_ofFinite_eq (h : (ofFinite x).IsExact) :
    (ofFinite x).decimal.toPattern = magnitude x :=
  toPattern_eq (magnitude_lt hx).le h.1 h.2 (roundsTo_ofFinite hx)

theorem toPattern_ofFinite_dist :
    Nat.dist (magnitude x) (ofFinite x).decimal.toPattern ≤ 4 := by
  have hlt := magnitude_lt hx
  rcases Nat.eq_zero_or_pos (magnitude x) with hzero | hpos
  · have hexact : (ofFinite x).IsExact := by
      rw [IsExact,ofFinite,decimal_layOut_negative,hzero]
      decide
    rw [toPattern_ofFinite_eq hx hexact,Nat.dist_self]
    exact Nat.zero_le _
  · have hc := (value_decimal_layOut (isNegative x) (coefficient_shortest_lt hlt)).2
    exact toPattern_dist hpos hlt hc (roundsTo_ofFinite hx)

theorem toPattern_ofFinite_lt : (ofFinite x).decimal.toPattern < infinite := by
  have hlt := magnitude_lt hx
  rcases Nat.lt_or_ge (magnitude x + 4) infinite with hsmall | hlarge
  · have hdist := toPattern_ofFinite_dist hx
    unfold Nat.dist at hdist
    omega
  · have hlast := toPattern_last (magnitude x - (infinite - 4)) (by omega)
    rw [Nat.add_sub_cancel' (Nat.sub_le_iff_le_add.2 hlarge)] at hlast
    rwa [ofFinite,decimal_layOut_negative]

theorem toFloat?_ofFinite : (ofFinite x).toFloat? = some (reread x) := by
  have hnegative : (ofFinite x).negative = isNegative x := layOut_negative _ _
  rw [toFloat?,if_pos (toPattern_ofFinite_lt hx),hnegative,reread]

theorem reread_of_finite : Reread x where
  isFinite := isFinite_signed (toPattern_ofFinite_lt hx)
  isNegative := isNegative_signed (toPattern_ofFinite_lt hx).le
  dist := by
    rw [reread,magnitude_signed (toPattern_ofFinite_lt hx).le]
    exact toPattern_ofFinite_dist hx
  exact h := by
    rw [reread,toPattern_ofFinite_eq hx h]
    exact signed_self x

end

end LSystem.Json.Numeral
