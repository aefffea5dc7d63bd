import LSystem.Proofs.Json.Numerals
import LSystem.Proofs.Json.Scanning
import LSystem.Proofs.Number.Comparison
import LSystem.Proofs.Number.Places

/-!
# Rounding through a text

A double is written with a set number of decimal places, and the text is read as a double again.
The text has the exact value of the double rounded to the nearest decimal, and reading takes the
double nearest to the decimal. So every such text can be read, and what comes back is the rounded double
(`readDouble?_fixedText`).

Texts of doubles are read more freely than they are written: a sign may be a plus, there may be
no digits on one side of the point, there may be an exponent, and the names of infinity and of the
undefined value may be in letters of either case.
-/
namespace LSystem.Number

open Json Json.Numeral

/-- The decimal with the given number of places that is nearest to a double. What is not finite has a
name. -/
def fixedText (places : ℕ) (x : Float) : List Char :=
  if magnitude x < infinite then
    let units := decimalUnits places (magnitude x)
    spell ⟨isNegative x,Nat.toDigits 10 (units / 10 ^ places),fixedDigits places units,none⟩
  else if magnitude x = infinite then
    if isNegative x then ['-','i','n','f'] else ['i','n','f']
  else ['N','a','N']

/-- The pattern of a value that has a name. -/
def namedPattern? (text : List Char) : Option ℕ :=
  let name := text.map Char.toLower
  if name = ['i','n','f'] ∨ name = ['i','n','f','i','n','i','t','y'] then some infinite
  else if name = ['n','a','n'] then some (infinite + 2 ^ 51)
  else none

/-- The digits after the point, where there is one, and what follows. -/
def splitFraction : List Char → List Char × List Char
  | '.' :: text => (text.takeWhile Char.isDigit,text.dropWhile Char.isDigit)
  | text => ([],text)

/-- The pattern nearest to an unsigned decimal. -/
def decimalPattern? (text : List Char) : Option ℕ :=
  let whole := text.takeWhile Char.isDigit
  let (fraction,rest) := splitFraction (text.dropWhile Char.isDigit)
  if whole = [] ∧ fraction = [] then none
  else match scanExponent? rest with
    | some (exponent,[]) =>
      let power : ℤ := exponent.getD 0 - fraction.length
      some (nearest (Nat.ofDigitChars 10 (whole ++ fraction) 0 * 10 ^ power.toNat)
        (10 ^ (-power).toNat))
    | _ => none

/-- The double nearest to what a text says, if the whole text is that of a double. -/
def readDouble? (text : List Char) : Option Float :=
  let (negative,text) := scanSign text
  ((namedPattern? text).or (decimalPattern? text)).map (signed negative)

theorem toLower_of_isDigit {c : Char} (h : c.isDigit = true) : c.toLower = c := by
  simp only [Char.isDigit,Bool.and_eq_true,decide_eq_true_eq] at h
  unfold Char.toLower
  rw [dif_neg]
  intro hc
  exact absurd (UInt32.le_trans hc.1 h.2) (by decide)

/-- No name begins with a digit. -/
theorem namedPattern?_digits {s : List Char} (h : Digits s) (rest : List Char) :
    namedPattern? (s ++ rest) = none := by
  obtain ⟨c,t,rfl,hc⟩ := h.head
  have hne (d : Char) (name : List Char) (hd : d.isDigit = false) :
      ((c :: t) ++ rest).map Char.toLower ≠ d :: name := by
    intro heq
    have hhead : c.toLower = d := (List.cons.inj heq).1
    rw [toLower_of_isDigit hc] at hhead
    rw [hhead,hd] at hc
    exact Bool.noConfusion hc
  unfold namedPattern?
  rw [if_neg,if_neg]
  · exact hne _ _ (by decide)
  · exact not_or.2 ⟨hne _ _ (by decide),hne _ _ (by decide)⟩

theorem noDigit_spellFraction (fraction : List Char) : NoDigit (spellFraction fraction) := by
  cases fraction with
  | nil => exact fun c hc => absurd hc (by simp [spellFraction])
  | cons d fraction =>
    intro c hc
    obtain rfl : '.' = c := by simpa [spellFraction] using hc
    rfl

theorem splitFraction_spellFraction {fraction : List Char}
    (h : ∀ c ∈ fraction, c.isDigit = true) :
    splitFraction (spellFraction fraction) = (fraction,[]) := by
  cases fraction with
  | nil => rfl
  | cons d fraction =>
    have hspan := @span_digits _ [] h (fun c hc => absurd hc (by simp))
    rw [List.append_nil] at hspan
    rw [spellFraction,splitFraction,hspan.1,hspan.2]
    simp

theorem decimalPattern?_spell {whole fraction : List Char} (hw : Digits whole)
    (hf : ∀ c ∈ fraction, c.isDigit = true) :
    decimalPattern? (whole ++ spellFraction fraction) =
      some (nearest (Nat.ofDigitChars 10 (whole ++ fraction) 0) (10 ^ fraction.length)) := by
  have hspan := span_digits hw.2 (noDigit_spellFraction fraction)
  unfold decimalPattern?
  rw [hspan.1,hspan.2,splitFraction_spellFraction hf]
  simp [hw.1,scanExponent?]

theorem readDouble?_spell {negative : Bool} {whole fraction : List Char} (hw : Digits whole)
    (hf : ∀ c ∈ fraction, c.isDigit = true) :
    readDouble? (spell ⟨negative,whole,fraction,none⟩) =
      some (signed negative (nearest (Nat.ofDigitChars 10 (whole ++ fraction) 0)
        (10 ^ fraction.length))) := by
  have hsign : SignAs negative (if negative then ['-'] else []) := by
    cases negative
    · exact .absent
    · exact .minus
  have hspell : spell ⟨negative,whole,fraction,none⟩ =
      (if negative then ['-'] else []) ++ (whole ++ spellFraction fraction) := by
    rw [spell,spellExponent,List.append_nil,List.append_assoc]
  unfold readDouble?
  rw [hspell,hsign.scanSign_eq hw]
  simp only [namedPattern?_digits hw,Option.none_or,decimalPattern?_spell hw hf,Option.map_some]

/-- The text of an infinity or of the undefined value is read as the same. -/
theorem readDouble?_fixedText_of_not_finite {x : Float} (places : ℕ) (h : infinite ≤ magnitude x) :
    readDouble? (fixedText places x) = some x := by
  unfold fixedText
  rw [if_neg (Nat.not_lt.2 h)]
  split
  · next hinf =>
    have hself := signed_self x
    rw [hinf] at hself
    cases hx : isNegative x with
    | false =>
      rw [hx] at hself
      rw [← hself]
      rfl
    | true =>
      rw [hx] at hself
      rw [← hself]
      rfl
  · next hne =>
    rw [eq_of_undefined (show infinite < magnitude x by omega)]
    rfl

/-- What is read from the text of a double is the rounded double. -/
theorem readDouble?_fixedText (places : ℕ) (x : Float) :
    readDouble? (fixedText places x) = some (roundPlaces places x) := by
  unfold roundPlaces isFinite
  by_cases hx : magnitude x < infinite
  · have hunits := Nat.div_add_mod' (decimalUnits places (magnitude x)) (10 ^ places)
    unfold fixedText
    rw [if_pos hx,if_pos (decide_eq_true hx),
      readDouble?_spell (digits_toDigits _) (fun _ => isDigit_of_mem_fixedDigits),
      length_fixedDigits,Nat.ofDigitChars_append,Nat.ofDigitChars_ten_toDigits,
      ofDigitChars_fixedDigits,hunits,roundMagnitude_eq]
  · rw [readDouble?_fixedText_of_not_finite places (Nat.le_of_not_lt hx),if_neg]
    simpa using hx

/-- Halfway between two decimals: 0.015625 goes to the even last digit. -/
example : fixedText 5 (signed false 0x3f90000000000000) = ['0','.','0','1','5','6','2'] := by
  decide +kernel

end LSystem.Number
