import LSystem.Json.Token
import LSystem.Text.Quoted

/-!
# Faults of documents

A text that is not what a reader expects has a fault. Either it is malformed, which has no further
description, or it is readable up to a place where something of another shape stands, and the fault
says what was found there and what was expected.
-/
namespace LSystem.Json

/-- What stands where something else was expected. -/
inductive Found where
  | null
  | boolean (value : Bool)
  | whole (value : Int)
  | floating (value : Float)
  | string (text : List Char)
  | sequence
  | map
  deriving DecidableEq, Repr

/-- What was expected. -/
inductive Expected where
  | string
  | character
  | map
  | sequence
  | number
  | pair
  | unit
  | identifier
  | record (title : String) (fields : Nat)
  deriving DecidableEq, Repr

inductive Fault where
  | malformed
  | wrongType (found : Found) (expected : Expected)
  | notASymbol (key : List Char)
  | tooFew (length : Nat) (expected : Expected)
  | duplicateField (name : List Char)
  | missingField (name : List Char)
  | unknownVariant (name : List Char) (known : List String)
  deriving DecidableEq, Repr

/-- A finite double as in a document, and the other doubles by name. -/
def spellFloat (x : Float) : String :=
  if Number.isFinite x then String.ofList (Numeral.ofFinite x).spell
  else if x.isNaN then "NaN"
  else if Number.isNegative x then "-inf" else "inf"

def Found.describe : Found → String
  | null => "null"
  | boolean true => "boolean `true`"
  | boolean false => "boolean `false`"
  | whole n => "integer `" ++ toString n ++ "`"
  | floating x => "floating point `" ++ spellFloat x ++ "`"
  | string text => "string " ++ Text.quoted text
  | sequence => "sequence"
  | map => "map"

def Expected.describe : Expected → String
  | string => "a string"
  | character => "a character"
  | map => "a map"
  | sequence => "a sequence"
  | number => "f64"
  | pair => "a sequence of 2 f64 values"
  | unit => "unit"
  | identifier => "variant identifier"
  | record title _ => "struct " ++ title

/-- What was expected where the number of elements is at fault. -/
def Expected.describeLength : Expected → String
  | record title 1 => "struct " ++ title ++ " with 1 element"
  | record title n => "struct " ++ title ++ " with " ++ toString n ++ " elements"
  | other => other.describe

/-- The description of a fault of shape. -/
def Fault.message? : Fault → Option String
  | malformed => none
  | wrongType found expected =>
    some ("invalid type: " ++ found.describe ++ ", expected " ++ expected.describe)
  | notASymbol key =>
    some ("invalid value: " ++ (Found.string key).describe ++ ", expected "
      ++ Expected.character.describe)
  | tooFew n expected =>
    some ("invalid length " ++ toString n ++ ", expected " ++ expected.describeLength)
  | duplicateField name => some ("duplicate field `" ++ String.ofList name ++ "`")
  | missingField name => some ("missing field `" ++ String.ofList name ++ "`")
  | unknownVariant name known =>
    some ("unknown variant `" ++ String.ofList name ++ "`, expected one of " ++
      ", ".intercalate (known.map fun k => "`" ++ k ++ "`"))

/-- What a token shows of the value that it begins. A numeral out of range, half of a surrogate pair
and a token that begins no value show nothing. -/
def Token.found? : Token → Option Found
  | .null => some .null
  | .boolean b => some (.boolean b)
  | .number n =>
    match n.toWhole? with
    | some i => some (.whole i)
    | none => n.toFloat?.map .floating
  | .string codes => (StringBody.scalars? codes).map .string
  | .openBracket => some .sequence
  | .openBrace => some .map
  | _ => none

/-- The fault of a token that is not what was expected. -/
def Token.unlike (t : Token) (expected : Expected) : Fault :=
  match t.found? with
  | some found => .wrongType found expected
  | none => .malformed

theorem Fault.message?_eq_none_iff (f : Fault) : f.message? = none ↔ f = malformed := by
  cases f <;> simp [message?]

end LSystem.Json
