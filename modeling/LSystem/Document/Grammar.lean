import LSystem.Grammar.Derivation
import LSystem.Json.Record
import LSystem.Json.Writing

/-!
# Documents of grammars

A grammar is a record of its start word and its rules, which may be missing. The rules are an object
whose keys are single symbols. A symbol may come more than once there, and the last replacement counts.
Whether the start word is empty is not a matter of the document: `Grammar.ofText` asks once all of it
has been read.
-/
namespace LSystem

open Json

/-- The reader for the replacement of the symbol that a key names. -/
def Rules.select (r : Rules) : List Char → Except Fault (Reader Rules)
  | [c] => .ok (Reader.string.map (r.insert c))
  | key => .error (.notASymbol key)

def Rules.reader : Reader Rules := Reader.object .map Rules.select ∅

def Rules.tokens (r : Rules) : List Token :=
  objectTokens (r.entries.map fun e => memberTokens [e.1] [Token.ofText e.2])

namespace Grammar

structure Draft where
  start : Option Word
  rules : Option Rules

def fields : List (Json.Field Draft) :=
  [⟨"start".toList,fun d => d.start.isSome,Reader.string.map fun v d => { d with start := some v }⟩,
    ⟨"rules".toList,fun d => d.rules.isSome,Rules.reader.map fun v d => { d with rules := some v }⟩]

def shape : Expected := .record "GrammarConfig" 2

def build (form : Form) (d : Draft) : Except Fault Grammar := do
  let start ← form.require shape 0 "start".toList d.start
  return ⟨start,d.rules.getD ∅⟩

def record : Record Draft Grammar := ⟨shape,fields,⟨none,none⟩,build⟩

def reader : Reader Grammar := record.reader

def tokens (g : Grammar) : List Token :=
  objectTokens [memberTokens "start".toList [Token.ofText g.start],
    memberTokens "rules".toList g.rules.tokens]

/-- The valid grammar of a text. -/
def ofText (text : List Char) : Except GrammarError Grammar :=
  match reader.ofText text with
  | .error f => .error (.unreadable f)
  | .ok g => g.validate.map fun _ => g

end Grammar

end LSystem
