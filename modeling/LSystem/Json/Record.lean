import LSystem.Json.Skipping

/-!
# Records

A record is written in one of two forms: as an object, whose members are found by name and stand in any
order, or as an array of the fields in their declared order. In an object unknown members are skipped
and no field may come twice. In an array there is a slot for each field, and the last ones may be
missing. Which fields must be there is for `build` to say, once the end of the record is reached.
-/
namespace LSystem.Json

/-- The two forms of a record. -/
inductive Form where
  | keyed
  | positional
  deriving DecidableEq, Repr

/-- One field of a record that is gathered in a draft. -/
structure Field (δ : Type) where
  name : List Char
  isSet : δ → Bool
  reader : Reader (δ → δ)

/-- A record by what it is called where something else stands in its place, its fields in declared
order, the draft without any field and the way from a draft to the record. -/
structure Record (δ α : Type) where
  shape : Expected
  fields : List (Field δ)
  blank : δ
  build : Form → δ → Except Fault α

namespace Record

variable {δ α : Type}

/-- The reader for the member of the given name. -/
def select (r : Record δ α) (d : δ) (key : List Char) : Except Fault (Reader δ) :=
  match r.fields.find? fun f => f.name = key with
  | none => .ok (Reader.skip.map fun _ => d)
  | some f => if f.isSet d then .error (.duplicateField key) else .ok (f.reader.map fun set => set d)

def positional (r : Record δ α) : Reader δ :=
  Reader.tuple r.shape (r.fields.map Field.reader) r.blank

def keyed (r : Record δ α) : Reader δ := Reader.object r.shape r.select r.blank

/-- The draft of a record. An opening bracket tells the positional form. -/
def draft (r : Record δ α) : Reader (Form × δ) where
  run
    | .openBracket :: input => (r.positional.map (Form.positional,·)).run (.openBracket :: input)
    | input => (r.keyed.map (Form.keyed,·)).run input
  consumes {input} {value} {rest} h := by
    split at h
    · exact Reader.consumes _ h
    · exact Reader.consumes _ h

/-- A record in either form. -/
def reader (r : Record δ α) : Reader α := r.draft.check fun d => r.build d.1 d.2

end Record

/-- A field that must be there, by its name and the number of fields before it. -/
def Form.require {β : Type} (form : Form) (shape : Expected) (index : Nat) (name : List Char) :
    Option β → Except Fault β
  | some b => .ok b
  | none =>
    match form with
    | .keyed => .error (.missingField name)
    | .positional => .error (.tooFew index shape)

end LSystem.Json
