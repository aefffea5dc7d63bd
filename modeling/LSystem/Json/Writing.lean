import LSystem.Json.Token

/-!
# Writing

Values are written as tokens, and tokens are spelled without blanks between them. A double that is not
finite has no numeral and becomes `null`.
-/
namespace LSystem.Json

namespace Token

def ofText (text : List Char) : Token := string (text.map Char.toNat)

def ofFloat (x : Float) : Token := if Number.isFinite x then number (Numeral.ofFinite x) else null

end Token

/-- Values with commas between them. -/
def separated (values : List (List Token)) : List Token := [Token.comma].intercalate values

def arrayTokens (items : List (List Token)) : List Token :=
  Token.openBracket :: separated items ++ [.closeBracket]

/-- A member of an object. -/
def memberTokens (name : List Char) (value : List Token) : List Token :=
  Token.ofText name :: .colon :: value

def objectTokens (members : List (List Token)) : List Token :=
  Token.openBrace :: separated members ++ [.closeBrace]

/-- The text of a sequence of tokens. -/
def spellAll (tokens : List Token) : List Char := tokens.flatMap Token.spell

end LSystem.Json
