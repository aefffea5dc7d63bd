import LSystem.Json.Numeral
import LSystem.Json.StringBody

/-!
# Tokens

A JSON text is a sequence of tokens with blanks between them. `Scan.ofText` takes tokens from the head
of a text for as long as there are any. It never fails: where no token follows it stops and says that
the text was not exhausted, since a reader may have found a fault before that place and must then
report its own.
-/
namespace LSystem.Json

inductive Token where
  | openBracket
  | closeBracket
  | openBrace
  | closeBrace
  | comma
  | colon
  | null
  | boolean (value : Bool)
  | number (numeral : Numeral)
  | string (codes : List Nat)
  deriving DecidableEq, Repr

namespace Token

/-- Space, line feed, carriage return and tab. -/
def isBlank (c : Char) : Bool := c = ' ' || c = '\n' || c = '\r' || c = '\t'

/-- The token at the head of a text that does not begin with a blank, and what follows it. -/
def scan? : List Char → Option (Token × List Char)
  | '[' :: rest => some (openBracket,rest)
  | ']' :: rest => some (closeBracket,rest)
  | '\x7b' :: rest => some (openBrace,rest)
  | '\x7d' :: rest => some (closeBrace,rest)
  | ',' :: rest => some (comma,rest)
  | ':' :: rest => some (colon,rest)
  | 'n' :: 'u' :: 'l' :: 'l' :: rest => some (null,rest)
  | 't' :: 'r' :: 'u' :: 'e' :: rest => some (boolean true,rest)
  | 'f' :: 'a' :: 'l' :: 's' :: 'e' :: rest => some (boolean false,rest)
  | '"' :: text => (StringBody.scan? text).map fun s => (string s.1,s.2)
  | text => (Numeral.scan? text).map fun n => (number n.1,n.2)

/-- The spelling of a token without needless characters. -/
def spell : Token → List Char
  | openBracket => ['[']
  | closeBracket => [']']
  | openBrace => ['\x7b']
  | closeBrace => ['\x7d']
  | comma => [',']
  | colon => [':']
  | null => ['n','u','l','l']
  | boolean true => ['t','r','u','e']
  | boolean false => ['f','a','l','s','e']
  | number n => n.spell
  | string codes => ['"'] ++ StringBody.spell codes ++ ['"']

theorem scan?_length {text rest : List Char} {t : Token} (h : scan? text = some (t,rest)) :
    rest.length < text.length := by
  unfold scan? at h
  split at h
  case h_10 =>
    obtain ⟨s,hs,he⟩ := Option.map_eq_some_iff.1 h
    have := StringBody.scan?_length (show StringBody.scan? _ = some (s.1,s.2) from hs)
    simp only [Prod.mk.injEq] at he
    rw [← he.2,List.length_cons]; omega
  case h_11 =>
    obtain ⟨n,hn,he⟩ := Option.map_eq_some_iff.1 h
    have := Numeral.scan?_length (show Numeral.scan? _ = some (n.1,n.2) from hn)
    simp only [Prod.mk.injEq] at he
    rw [← he.2]; exact this
  all_goals
    simp only [Option.some.injEq,Prod.mk.injEq] at h
    rw [← h.2]; simp only [List.length_cons]; omega

end Token

/-- The tokens at the head of a text, and whether they are all of it. -/
structure Scan where
  tokens : List Token
  exhausted : Bool
  deriving DecidableEq, Repr

/-- A scan with one more token in front. -/
def Scan.cons (t : Token) (s : Scan) : Scan := { s with tokens := t :: s.tokens }

def Scan.ofText (text : List Char) : Scan :=
  match text with
  | [] => ⟨[],true⟩
  | c :: text =>
    if Token.isBlank c then Scan.ofText text
    else
      match h : Token.scan? (c :: text) with
      | none => ⟨[],false⟩
      | some (t,rest) =>
        have : rest.length < text.length + 1 := Token.scan?_length h
        (Scan.ofText rest).cons t
  termination_by text.length

end LSystem.Json
