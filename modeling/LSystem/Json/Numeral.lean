import LSystem.Number.Scaling

/-!
# Numerals

A JSON numeral has an optional minus sign, a whole part without leading zeros, an optional fraction
and an optional exponent. `Numeral.scan?` takes the longest one at the head of a text; a text that goes
on where a digit is required has none. `Numeral.spell` writes one back.

A numeral is read into a coefficient of 64 bits with a power of ten. Its whole part and then its
fraction are taken up digit by digit for as long as they fit. The digits that are left out count only
by the places that they take before the point.

A finite double is written with its shortest decimal, in plain form for decimal exponents from -5 up
to 15, where there is always a point, and otherwise with one digit before the point and a signed
exponent.
-/
namespace LSystem.Json

open Number

structure Numeral where
  negative : Bool
  /-- The digits before the point. -/
  whole : List Char
  /-- The digits after the point. There are none where there is no point. -/
  fraction : List Char
  exponent : Option Int
  deriving DecidableEq, Repr

namespace Numeral

/-- A coefficient with digits appended for as long as it stays below 2⁶⁴, and the digits left out. -/
def takeUp (n : Nat) : List Char → Nat × List Char
  | [] => (n,[])
  | c :: digits =>
    let m := 10 * n + (c.toNat - '0'.toNat)
    if m < Nat.pow 2 64 then takeUp m digits else (n,c :: digits)

/-- The unsigned value, less what the coefficient cannot hold. -/
def decimal (n : Numeral) : Decimal :=
  let (whole,scaled) := takeUp 0 n.whole
  let (coefficient,dropped) := takeUp whole n.fraction
  ⟨coefficient,n.exponent.getD 0 + scaled.length + dropped.length - n.fraction.length⟩

/-- The double to which a numeral evaluates, unless it is beyond the range of the doubles. -/
def toFloat? (n : Numeral) : Option Float :=
  let pattern := n.decimal.toPattern
  if pattern < infinite then some (signed n.negative pattern) else none

/-- The value of a numeral that is written as a whole number and fits a word of 64 bits, unsigned, or
signed where there is a minus sign. A negative zero is no whole number. -/
def toWhole? (n : Numeral) : Option Int :=
  let whole := Nat.ofDigitChars 10 n.whole 0
  if n.fraction = [] ∧ n.exponent = none then
    if n.negative then if 0 < whole ∧ whole ≤ Nat.pow 2 63 then some (-whole) else none
    else if whole < Nat.pow 2 64 then some whole else none
  else none

/-- The given number of decimal digits, from the last ones of `n`. -/
def fixedDigits : (width n : Nat) → List Char
  | 0, _ => []
  | width + 1, n => fixedDigits width (n / 10) ++ [Nat.digitChar (n % 10)]

/-- The least and the first excluded decimal exponent of the plain form. -/
structure PlainRange where
  least : Int
  bound : Int

def plainRange : PlainRange := ⟨-5,16⟩

/-- A decimal in plain form or with an exponent, as the range says. -/
def layOut (range : PlainRange) (negative : Bool) (d : Decimal) : Numeral :=
  let digits := Nat.toDigits 10 d.coefficient
  let leading := d.exponent + digits.length - 1
  if range.least ≤ leading ∧ leading < range.bound then
    if 0 ≤ d.exponent then
      ⟨negative,Nat.toDigits 10 (d.coefficient * Nat.pow 10 d.exponent.toNat),['0'],none⟩
    else
      let places := (-d.exponent).toNat
      ⟨negative,Nat.toDigits 10 (d.coefficient / Nat.pow 10 places),fixedDigits places d.coefficient,none⟩
  else ⟨negative,digits.take 1,digits.drop 1,some leading⟩

/-- The numeral of a finite double. -/
def ofFinite (x : Float) : Numeral := layOut plainRange (isNegative x) (shortest (magnitude x))

def spellExponent : Option Int → List Char
  | none => []
  | some e => 'e' :: (if 0 ≤ e then '+' else '-') :: Nat.toDigits 10 e.natAbs

def spellFraction : List Char → List Char
  | [] => []
  | digits => '.' :: digits

def spell (n : Numeral) : List Char :=
  (if n.negative then ['-'] else []) ++ n.whole ++ spellFraction n.fraction ++
    spellExponent n.exponent

/-- The digits at the head of a text, at least one, and what follows them. -/
def digits? (text : List Char) : Option (List Char × List Char) :=
  match text.takeWhile Char.isDigit with
  | [] => none
  | digits => some (digits,text.dropWhile Char.isDigit)

/-- The whole part. Only zero itself begins with a zero. -/
def scanWhole? (text : List Char) : Option (List Char × List Char) :=
  match digits? text with
  | none => none
  | some ('0' :: _ :: _,_) => none
  | some (digits,rest) => some (digits,rest)

def scanFraction? : List Char → Option (List Char × List Char)
  | '.' :: text => digits? text
  | text => some ([],text)

/-- The sign of an exponent, negative where it is a minus. -/
def scanSign : List Char → Bool × List Char
  | '-' :: text => (true,text)
  | '+' :: text => (false,text)
  | text => (false,text)

/-- The value of the digits of an exponent. -/
def exponentValue (negative : Bool) (digits : List Char) : Int :=
  if negative then -(Nat.ofDigitChars 10 digits 0 : Int) else Nat.ofDigitChars 10 digits 0

def scanExponentValue? (text : List Char) : Option (Option Int × List Char) :=
  (digits? (scanSign text).2).map fun d => (some (exponentValue (scanSign text).1 d.1),d.2)

def scanExponent? : List Char → Option (Option Int × List Char)
  | 'e' :: text => scanExponentValue? text
  | 'E' :: text => scanExponentValue? text
  | text => some (none,text)

def scanUnsigned? (negative : Bool) (text : List Char) : Option (Numeral × List Char) :=
  match scanWhole? text with
  | none => none
  | some (whole,text) =>
    match scanFraction? text with
    | none => none
    | some (fraction,text) =>
      match scanExponent? text with
      | none => none
      | some (exponent,text) => some (⟨negative,whole,fraction,exponent⟩,text)

/-- The numeral at the head of a text and what follows it. -/
def scan? : List Char → Option (Numeral × List Char)
  | '-' :: text => scanUnsigned? true text
  | text => scanUnsigned? false text

theorem digits?_length {text digits rest : List Char} (h : digits? text = some (digits,rest)) :
    rest.length < text.length := by
  unfold digits? at h
  split at h
  · exact absurd h (by simp)
  · next hne =>
    have hl := congrArg List.length (List.takeWhile_append_dropWhile (p := Char.isDigit) (l := text))
    simp only [Option.some.injEq,Prod.mk.injEq] at h
    rw [List.length_append,h.2] at hl
    have hp := List.length_pos_iff.2 hne
    omega

theorem scanWhole?_length {text digits rest : List Char}
    (h : scanWhole? text = some (digits,rest)) : rest.length < text.length := by
  unfold scanWhole? at h
  split at h
  · exact absurd h (by simp)
  · exact absurd h (by simp)
  · next hd =>
    simp only [Option.some.injEq,Prod.mk.injEq] at h
    rw [← h.2]; exact digits?_length hd

theorem scanFraction?_length {text digits rest : List Char}
    (h : scanFraction? text = some (digits,rest)) : rest.length ≤ text.length := by
  unfold scanFraction? at h
  split at h
  · have := digits?_length h
    rw [List.length_cons]; omega
  · simp only [Option.some.injEq,Prod.mk.injEq] at h
    exact Nat.le_of_eq (congrArg List.length h.2.symm)

theorem scanSign_length (text : List Char) : (scanSign text).2.length ≤ text.length := by
  unfold scanSign
  split <;> simp

theorem scanExponentValue?_length {text rest : List Char} {e : Option Int}
    (h : scanExponentValue? text = some (e,rest)) : rest.length ≤ text.length := by
  obtain ⟨d,hd,he⟩ := Option.map_eq_some_iff.1 h
  have hs := scanSign_length text
  have := digits?_length (show digits? _ = some (d.1,d.2) from hd)
  simp only [Prod.mk.injEq] at he
  rw [← he.2]; omega

theorem scanExponent?_length {text rest : List Char} {e : Option Int}
    (h : scanExponent? text = some (e,rest)) : rest.length ≤ text.length := by
  unfold scanExponent? at h
  split at h
  · have := scanExponentValue?_length h
    rw [List.length_cons]; omega
  · have := scanExponentValue?_length h
    rw [List.length_cons]; omega
  · simp only [Option.some.injEq,Prod.mk.injEq] at h
    exact Nat.le_of_eq (congrArg List.length h.2.symm)

theorem scanUnsigned?_length {negative : Bool} {text rest : List Char} {n : Numeral}
    (h : scanUnsigned? negative text = some (n,rest)) : rest.length < text.length := by
  unfold scanUnsigned? at h
  split at h
  · exact absurd h (by simp)
  · next hw =>
    split at h
    · exact absurd h (by simp)
    · next hf =>
      split at h
      · exact absurd h (by simp)
      · next he =>
        simp only [Option.some.injEq,Prod.mk.injEq] at h
        have := scanWhole?_length hw
        have := scanFraction?_length hf
        have := scanExponent?_length he
        rw [← h.2]; omega

/-- A numeral takes up some of the text. -/
theorem scan?_length {text rest : List Char} {n : Numeral} (h : scan? text = some (n,rest)) :
    rest.length < text.length := by
  unfold scan? at h
  split at h
  · have := scanUnsigned?_length h
    rw [List.length_cons]; omega
  · exact scanUnsigned?_length h

end Numeral

end LSystem.Json
