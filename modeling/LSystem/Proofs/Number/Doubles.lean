import LSystem.Proofs.Number.Decoding

/-!
# Defined doubles

A double is its sign bit together with its pattern (`signed_self`), and every sign bit with the pattern
of a magnitude that is finite or infinite is one (`isNegative_signed`, `magnitude_signed`).
-/
namespace LSystem.Number

open Float.Model UnpackedFloat

theorem toBits_ofBits {bits : UInt64} (h : bits.toNat % Nat.pow 2 63 ≤ infinite) :
    (Float.ofBits bits).toBits = bits :=
  UInt64.toBitVec_inj.1 (pack_unpack_eq (valid_of_le_infinite h))

theorem eq_of_toBits {x y : Float} (h : x.toBits = y.toBits) : x = y := by
  obtain ⟨⟨bits,_⟩⟩ := x
  obtain ⟨⟨others,_⟩⟩ := y
  obtain rfl : bits = others := h
  rfl

theorem eq_of_undefined {x : Float} (h : infinite < magnitude x) : x = 0 / 0 :=
  eq_of_toBits (UInt64.toBitVec_inj.1 (eq_packedNaN x.toModel.valid h))

theorem ofBits_toBits (x : Float) : Float.ofBits x.toBits = x :=
  eq_of_toBits (UInt64.toBitVec_inj.1 (pack_unpack_eq x.toModel.valid))

variable {negative : Bool} {p : ℕ}

theorem toNat_toBits_signed (h : p ≤ infinite) :
    (signed negative p).toBits.toNat = if negative then Nat.pow 2 63 + p else p := by
  have hbits : (if negative then Nat.pow 2 63 + p else p) < 2 ^ 64 := by
    simp only [infinite,Nat.pow_eq] at *
    split <;> omega
  unfold signed
  rw [toBits_ofBits]
  · rw [UInt64.toNat_ofNat',Nat.mod_eq_of_lt hbits]
  · rw [UInt64.toNat_ofNat',Nat.mod_eq_of_lt hbits]
    simp only [infinite,Nat.pow_eq] at *
    split <;> omega

theorem isNegative_signed (h : p ≤ infinite) : isNegative (signed negative p) = negative := by
  rw [isNegative,toNat_toBits_signed h]
  simp only [infinite,Nat.pow_eq] at *
  cases negative <;> simp
  omega

theorem magnitude_signed (h : p ≤ infinite) : magnitude (signed negative p) = p := by
  rw [magnitude,toNat_toBits_signed h]
  simp only [infinite,Nat.pow_eq] at *
  split <;> omega

theorem isFinite_signed (h : p < infinite) : isFinite (signed negative p) = true := by
  rw [isFinite,magnitude_signed (Nat.le_of_lt h)]
  exact decide_eq_true h

/-- A double is its sign bit and its pattern. -/
theorem signed_self (x : Float) : signed (isNegative x) (magnitude x) = x := by
  have hbits : (if isNegative x then Nat.pow 2 63 + magnitude x else magnitude x) =
      x.toBits.toNat := by
    have hlt := x.toBits.toNat_lt
    simp only [isNegative,magnitude,Nat.pow_eq,decide_eq_true_eq]
    split <;> omega
  rw [signed,hbits,UInt64.ofNat_toNat,ofBits_toBits]

end LSystem.Number
