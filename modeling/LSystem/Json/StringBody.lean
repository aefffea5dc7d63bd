/-!
# The inside of JSON strings

Between its quotes a string holds characters that stand for themselves and escapes. An escape of four
hexadecimal digits names a UTF-16 unit, which need not be a character: two in a row may form a
surrogate pair, and one half alone forms none. So scanning and reading are two steps. `scan?` finds
the closing quote and yields code points in which halves may be left; `scalars?` joins the pairs and
refuses what stays alone. A string that is only skipped is scanned and not read.
-/
namespace LSystem.Json.StringBody

/-- The value of a hexadecimal digit of either case. -/
def hexValue? (c : Char) : Option Nat :=
  if '0' ≤ c ∧ c ≤ '9' then some (c.toNat - '0'.toNat)
  else if 'a' ≤ c ∧ c ≤ 'f' then some (c.toNat - 'a'.toNat + 10)
  else if 'A' ≤ c ∧ c ≤ 'F' then some (c.toNat - 'A'.toNat + 10)
  else none

/-- The unit named by four hexadecimal digits. -/
def unit? (a b c d : Char) : Option Nat := do
  return ((← hexValue? a) * 16 + (← hexValue? b)) * 256 + (← hexValue? c) * 16 + (← hexValue? d)

/-- The code point of an escape of one letter. -/
def letterEscape? : Char → Option Nat
  | '"' => some 0x22
  | '\\' => some 0x5c
  | '/' => some 0x2f
  | 'b' => some 0x08
  | 'f' => some 0x0c
  | 'n' => some 0x0a
  | 'r' => some 0x0d
  | 't' => some 0x09
  | _ => none

/-- A code point put before the result of scanning what follows it. -/
def prepend (code : Option Nat) (tail : Option (List Nat × List Char)) :
    Option (List Nat × List Char) :=
  match code, tail with
  | some n, some (codes,rest) => some (n :: codes,rest)
  | _, _ => none

/-- The code points up to the closing quote, and the text after it. Control characters must be
escaped. -/
def scan? : List Char → Option (List Nat × List Char)
  | [] => none
  | '"' :: rest => some ([],rest)
  | '\\' :: 'u' :: a :: b :: c :: d :: rest => prepend (unit? a b c d) (scan? rest)
  | '\\' :: c :: rest => prepend (letterEscape? c) (scan? rest)
  | c :: rest => prepend (if c.toNat < 0x20 then none else some c.toNat) (scan? rest)

def isHighHalf (n : Nat) : Bool := 0xd800 ≤ n && n < 0xdc00

def isLowHalf (n : Nat) : Bool := 0xdc00 ≤ n && n < 0xe000

/-- The character of a surrogate pair. -/
def joinHalves (high low : Nat) : Char :=
  Char.ofNat (0x10000 + (high - 0xd800) * 0x400 + (low - 0xdc00))

/-- The characters that code points stand for, if no half of a pair is alone. -/
def scalars? : List Nat → Option (List Char)
  | [] => some []
  | [n] => if isHighHalf n || isLowHalf n then none else some [Char.ofNat n]
  | n :: m :: rest =>
    if isHighHalf n then
      if isLowHalf m then (scalars? rest).map (joinHalves n m :: ·) else none
    else if isLowHalf n then none
    else (scalars? (m :: rest)).map (Char.ofNat n :: ·)

/-- The escape of a UTF-16 unit by its number. -/
def hexEscape (n : Nat) : List Char :=
  ['\\', 'u', Nat.digitChar (n / 4096), Nat.digitChar (n / 256 % 16), Nat.digitChar (n / 16 % 16),
    Nat.digitChar (n % 16)]

/-- A code point as itself, or escaped where it must be: the quote, the backslash, control characters
and halves of pairs. -/
def spellCode (n : Nat) : List Char :=
  if n = 0x22 then ['\\', '"']
  else if n = 0x5c then ['\\', '\\']
  else if n = 0x08 then ['\\', 'b']
  else if n = 0x09 then ['\\', 't']
  else if n = 0x0a then ['\\', 'n']
  else if n = 0x0c then ['\\', 'f']
  else if n = 0x0d then ['\\', 'r']
  else if n < 0x20 || isHighHalf n || isLowHalf n then hexEscape n
  else [Char.ofNat n]

/-- Code points as they are written between quotes. -/
def spell (codes : List Nat) : List Char := codes.flatMap spellCode

theorem prepend_eq_some {code : Option Nat} {tail : Option (List Nat × List Char)}
    {codes : List Nat} {rest : List Char} (h : prepend code tail = some (codes,rest)) :
    ∃ n more, code = some n ∧ tail = some (more,rest) ∧ codes = n :: more := by
  unfold prepend at h
  split at h
  · simp only [Option.some.injEq,Prod.mk.injEq] at h
    exact ⟨_,_,rfl,by rw [h.2],h.1.symm⟩
  · exact absurd h (by simp)

/-- The closing quote is part of what is scanned. -/
theorem scan?_length {text rest : List Char} {codes : List Nat}
    (h : scan? text = some (codes,rest)) : rest.length < text.length := by
  fun_induction scan? text generalizing codes with
  | case1 => exact absurd h (by simp)
  | case2 text =>
    simp only [Option.some.injEq,Prod.mk.injEq] at h
    rw [h.2]; exact Nat.lt_succ_self _
  | case3 a b c d text ih =>
    obtain ⟨_,_,_,ht,_⟩ := prepend_eq_some h
    have := ih ht
    simp only [List.length_cons]; omega
  | case4 c text _ ih =>
    obtain ⟨_,_,_,ht,_⟩ := prepend_eq_some h
    have := ih ht
    simp only [List.length_cons]; omega
  | case5 c text _ _ _ ih =>
    obtain ⟨_,_,_,ht,_⟩ := prepend_eq_some h
    have := ih ht
    simp only [List.length_cons]; omega

end LSystem.Json.StringBody
