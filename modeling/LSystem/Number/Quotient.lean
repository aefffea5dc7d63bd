/-!
# Nearest whole quotient

Every rounding of this library, from binary to decimal and back, is one division of natural numbers
in which a half goes to the even neighbour. `roundDiv_le` and `roundDiv_ge` bound the error by half
a unit, `roundDiv_even_of_tie` settles the tie, and `roundDiv_mono` says that rounding keeps the
order of its numerators.
-/
namespace LSystem.Number

/-- The natural number nearest to `num / den`. A half goes to the even neighbour. -/
def roundDiv (num den : Nat) : Nat :=
  if 2 * (num % den) < den ∨ (2 * (num % den) = den ∧ num / den % 2 = 0) then num / den
  else num / den + 1

theorem roundDiv_eq_or (num den : Nat) :
    roundDiv num den = num / den ∨ roundDiv num den = num / den + 1 := by
  unfold roundDiv; split
  · exact .inl rfl
  · exact .inr rfl

/-- The rounded quotient exceeds the exact one by at most a half. -/
theorem roundDiv_le {num den : Nat} (h : 0 < den) :
    2 * (roundDiv num den * den) ≤ 2 * num + den := by
  have hd := Nat.div_add_mod num den
  have hr := Nat.mod_lt num h
  have hc := Nat.mul_comm (num / den) den
  have hs : (num / den + 1) * den = num / den * den + den := Nat.succ_mul _ _
  unfold roundDiv; split <;> omega

/-- The rounded quotient falls short of the exact one by at most a half. -/
theorem roundDiv_ge {num den : Nat} (h : 0 < den) :
    2 * num ≤ 2 * (roundDiv num den * den) + den := by
  have hd := Nat.div_add_mod num den
  have hr := Nat.mod_lt num h
  have hc := Nat.mul_comm (num / den) den
  have hs : (num / den + 1) * den = num / den * den + den := Nat.succ_mul _ _
  unfold roundDiv; split <;> omega

/-- Where the exact quotient lies halfway between two whole numbers, the even one is taken. -/
theorem roundDiv_even_of_tie {num den : Nat} (h : 2 * (num % den) = den) :
    roundDiv num den % 2 = 0 := by
  unfold roundDiv
  by_cases he : num / den % 2 = 0
  · rw [if_pos (.inr ⟨h,he⟩)]; exact he
  · rw [if_neg (by omega)]; omega

/-- A whole quotient is its own rounding. -/
theorem roundDiv_mul {den : Nat} (h : 0 < den) (n : Nat) : roundDiv (n * den) den = n := by
  unfold roundDiv
  rw [Nat.mul_mod_left,Nat.mul_div_cancel _ h,if_pos (.inl (by omega))]

theorem roundDiv_mono {a b : Nat} (hab : a ≤ b) (den : Nat) : roundDiv a den ≤ roundDiv b den := by
  have hq : a / den ≤ b / den := Nat.div_le_div_right hab
  have ha := Nat.div_add_mod a den
  have hb := Nat.div_add_mod b den
  rcases Nat.lt_or_ge (a / den) (b / den) with hlt | hge
  · rcases roundDiv_eq_or a den with e | e <;> rcases roundDiv_eq_or b den with f | f <;> omega
  · have he : a / den = b / den := by omega
    have hm : a % den ≤ b % den := by rw [he] at ha; omega
    unfold roundDiv; rw [he]
    split <;> split <;> omega

end LSystem.Number
