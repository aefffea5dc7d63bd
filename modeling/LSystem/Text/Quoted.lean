import LSystem.Text.Hidden

/-!
# Quoted text in messages

A message shows a text of the input in double quotes and a single symbol in single quotes. The quote,
the backslash and line breaks are escaped, and what would not be seen, or would join its neighbour, is
written by its code point.
-/
namespace LSystem.Text

/-- One character as it stands between quotes of the given kind. -/
def spell (quote c : Char) : List Char :=
  if c = quote || c = '\\' then ['\\', c]
  else if c = '\n' then ['\\', 'n']
  else if c = '\r' then ['\\', 'r']
  else if c = '\t' then ['\\', 't']
  else if c.toNat = 0 then ['\\', '0']
  else if isHidden c then ['\\', 'u', '\x7b'] ++ Nat.toDigits 16 c.toNat ++ ['\x7d']
  else [c]

/-- A text in double quotes. -/
def quoted (text : List Char) : String :=
  String.ofList (['"'] ++ text.flatMap (spell '"') ++ ['"'])

/-- A symbol in single quotes. -/
def quotedSymbol (c : Char) : String := String.ofList (['\''] ++ spell '\'' c ++ ['\''])

end LSystem.Text
