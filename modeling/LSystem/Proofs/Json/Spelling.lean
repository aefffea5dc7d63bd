import LSystem.Json.Token
import Mathlib.Data.List.Basic

/-!
# Spelling of tokens

What JSON says about characters, as relations: how numerals, strings and the other tokens may be
spelled, and that a text is a sequence of spelled tokens with blanks before, between and after
them. Nothing here looks for the end of a token. That is the business of a scanner, and a text
that spells its tokens leaves no choice as long as no two numerals touch
(`Scan.ofText_of_spells`).

The code points between the quotes of a string need not be characters. `StringBody.Denotes` says
which characters they stand for, the halves of a surrogate pair being joined.
-/
namespace LSystem.Json

namespace Numeral

/-- At least one digit and nothing else. -/
def Digits (s : List Char) : Prop := s ≠ [] ∧ ∀ c ∈ s, c.isDigit = true

/-- Digits without a leading zero, or zero itself. -/
def WholePart (s : List Char) : Prop := Digits s ∧ (s.head? = some '0' → s = ['0'])

inductive FractionAs : (digits : List Char) → List Char → Prop
  | absent : FractionAs [] []
  | present {s : List Char} (h : Digits s) : FractionAs s ('.' :: s)

inductive SignAs : (negative : Bool) → List Char → Prop
  | absent : SignAs false []
  | plus : SignAs false ['+']
  | minus : SignAs true ['-']

inductive ExponentAs : Option Int → List Char → Prop
  | absent : ExponentAs none []
  | present {mark : Char} {negative : Bool} {sign s : List Char} (hm : mark = 'e' ∨ mark = 'E')
      (hs : SignAs negative sign) (h : Digits s) :
      ExponentAs (some (exponentValue negative s)) (mark :: (sign ++ s))

inductive SpelledAs (n : Numeral) : List Char → Prop
  | mk {fraction exponent : List Char} (hw : WholePart n.whole)
      (hf : FractionAs n.fraction fraction) (he : ExponentAs n.exponent exponent) :
      n.SpelledAs ((if n.negative then ['-'] else []) ++ (n.whole ++ (fraction ++ exponent)))

end Numeral

namespace StringBody

/-- The letters that may follow a backslash and the code points that they stand for. -/
def letterEscapes : List (Char × Nat) :=
  [('"',0x22), ('\\',0x5c), ('/',0x2f), ('b',0x08), ('f',0x0c), ('n',0x0a), ('r',0x0d), ('t',0x09)]

inductive CodeAs : (code : Nat) → List Char → Prop
  | plain {c : Char} (hc : 0x20 ≤ c.toNat) (hq : c ≠ '"') (hb : c ≠ '\\') : CodeAs c.toNat [c]
  | letter {c : Char} {code : Nat} (h : (c,code) ∈ letterEscapes) : CodeAs code ['\\',c]
  | unit {a b c d : Char} {w x y z : Nat} (ha : hexValue? a = some w) (hb : hexValue? b = some x)
      (hc : hexValue? c = some y) (hd : hexValue? d = some z) :
      CodeAs (w * 4096 + x * 256 + y * 16 + z) ['\\','u',a,b,c,d]

inductive SpelledAs : (codes : List Nat) → List Char → Prop
  | nil : SpelledAs [] []
  | cons {code : Nat} {codes : List Nat} {s t : List Char} (h : CodeAs code s)
      (ht : SpelledAs codes t) : SpelledAs (code :: codes) (s ++ t)

/-- The characters that code points stand for. Half of a surrogate pair stands for none by itself.
-/
inductive Denotes : (codes : List Nat) → List Char → Prop
  | nil : Denotes [] []
  | single {n : Nat} {codes : List Nat} {s : List Char} (hh : isHighHalf n = false)
      (hl : isLowHalf n = false) (h : Denotes codes s) : Denotes (n :: codes) (Char.ofNat n :: s)
  | pair {n m : Nat} {codes : List Nat} {s : List Char} (hh : isHighHalf n = true)
      (hl : isLowHalf m = true) (h : Denotes codes s) :
      Denotes (n :: m :: codes) (joinHalves n m :: s)

end StringBody

inductive Token.SpelledAs : Token → List Char → Prop
  | openBracket : SpelledAs .openBracket ['[']
  | closeBracket : SpelledAs .closeBracket [']']
  | openBrace : SpelledAs .openBrace ['\x7b']
  | closeBrace : SpelledAs .closeBrace ['\x7d']
  | comma : SpelledAs .comma [',']
  | colon : SpelledAs .colon [':']
  | null : SpelledAs .null ['n','u','l','l']
  | truth : SpelledAs (.boolean true) ['t','r','u','e']
  | falsity : SpelledAs (.boolean false) ['f','a','l','s','e']
  | number {n : Numeral} {s : List Char} (h : n.SpelledAs s) : SpelledAs (.number n) s
  | string {codes : List Nat} {s : List Char} (h : StringBody.SpelledAs codes s) :
      SpelledAs (.string codes) ('"' :: (s ++ ['"']))

/-- Nothing but blanks. -/
def Blank (s : List Char) : Prop := ∀ c ∈ s, Token.isBlank c = true

/-- A text that consists of the given tokens, with blanks anywhere between them. -/
inductive Spells : (text : List Char) → List Token → Prop
  | nil {s : List Char} (hb : Blank s) : Spells s []
  | cons {blanks s text : List Char} {t : Token} {tokens : List Token} (hb : Blank blanks)
      (h : t.SpelledAs s) (ht : Spells text tokens) : Spells (blanks ++ (s ++ text)) (t :: tokens)

/-- Could the character go on with a numeral that stands before it? -/
def continuesNumeral (c : Char) : Bool := c.isDigit || c = '.' || c = 'e' || c = 'E'

def Token.isNumber : Token → Bool
  | .number _ => true
  | _ => false

namespace Numeral

theorem Digits.head {s : List Char} (h : Digits s) : ∃ c t, s = c :: t ∧ c.isDigit = true := by
  rcases h with ⟨hne,hd⟩
  obtain ⟨c,t,rfl⟩ := List.exists_cons_of_ne_nil hne
  exact ⟨c,t,rfl,hd c List.mem_cons_self⟩

/-- A numeral begins with a digit or a minus sign. -/
theorem SpelledAs.head {n : Numeral} {s : List Char} (h : n.SpelledAs s) :
    ∃ c t, s = c :: t ∧ (c.isDigit = true ∨ c = '-') := by
  rcases h with ⟨hw,hf,he⟩
  obtain ⟨c,t,hs,hc⟩ := hw.1.head
  cases n.negative with
  | false =>
    rw [hs]
    exact ⟨c,_,rfl,.inl hc⟩
  | true => exact ⟨'-',_,rfl,.inr rfl⟩

end Numeral

/-- A token begins with no blank, and with nothing that could go on with a numeral unless it is
one. -/
theorem Token.SpelledAs.head {t : Token} {s : List Char} (h : t.SpelledAs s) :
    ∃ c r, s = c :: r ∧ isBlank c = false ∧ (t.isNumber = false → continuesNumeral c = false) := by
  cases h with
  | number h =>
    obtain ⟨c,r,rfl,hc⟩ := h.head
    refine ⟨c,r,rfl,?_,by simp [isNumber]⟩
    rcases hc with hc | rfl
    · have ne : ∀ d : Char, d.isDigit = false → c ≠ d := fun d hd e => by
        rw [e,hd] at hc
        exact Bool.false_ne_true hc
      simp [isBlank,ne ' ' rfl,ne '\n' rfl,ne '\r' rfl,ne '\t' rfl]
    · rfl
  | string h => exact ⟨'"',_,rfl,rfl,fun _ => rfl⟩
  | _ => exact ⟨_,_,rfl,rfl,fun _ => rfl⟩

theorem continuesNumeral_of_isBlank {c : Char} (h : Token.isBlank c = true) :
    continuesNumeral c = false := by
  simp only [Token.isBlank,Bool.or_eq_true,decide_eq_true_eq] at h
  rcases h with ((rfl | rfl) | rfl) | rfl <;> rfl

/-- The text does not go on with a numeral that ends before it. -/
def Stops (text : List Char) : Prop := ∀ c ∈ text.head?, continuesNumeral c = false

theorem stops_nil : Stops [] := by
  intro c hc
  exact absurd hc (by simp)

theorem stops_of_blank {blanks text : List Char} (hb : Blank blanks) (h : Stops text) :
    Stops (blanks ++ text) := by
  cases blanks with
  | nil => exact h
  | cons b blanks =>
    intro c hc
    have heq : b = c := by simpa using hc
    subst heq
    exact continuesNumeral_of_isBlank (hb b List.mem_cons_self)

/-- No numeral stands first. -/
def OtherFirst (tokens : List Token) : Prop := ∀ t ∈ tokens.head?, t.isNumber = false

theorem Spells.stops {text : List Char} {tokens : List Token} (h : Spells text tokens)
    (ho : OtherFirst tokens) : Stops text := by
  cases h with
  | nil hb =>
    have hs := stops_of_blank hb stops_nil
    rwa [List.append_nil] at hs
  | cons hb ht _ =>
    apply stops_of_blank hb
    obtain ⟨c,r,rfl,_,hc⟩ := ht.head
    intro d hd
    have heq : c = d := by simpa using hd
    subst heq
    exact hc (ho _ rfl)

end LSystem.Json
