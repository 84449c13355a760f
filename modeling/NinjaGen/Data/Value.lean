/-!
# Values

Configuration, descriptors and plans are exchanged as values: texts, numbers, lists and records.
One type of value serves every notation in which they are written.

* `Value` is a value; a record keeps its fields in the order in which they were written.
* `Value.asString`, `asBool`, `asSize`, `asStrings`, `asList` and `asFields` read a value of one
  form and refuse any other.
* A `Convention` says how freely a notation writes records and words. `Value.asRecord` also takes
  the values of fields without their names, and `Value.asNamed` a word with nothing beside it.
* `field?`, `required` and `optional` read a field of a record.
-/

namespace NinjaGen

/-- A value of a notation for data. -/
inductive Value
  | null
  | bool (b : Bool)
  | int (n : Int)
  /-- A number that is not written as an integer. -/
  | decimal (text : String)
  | string (s : String)
  /-- A date or a time. -/
  | moment (text : String)
  | list (items : List Value)
  | record (fields : List (String × Value))
  deriving Repr, Inhabited

/-- Why a value was refused. -/
inductive DecodeError
  /-- A value has another form than the one that is needed. -/
  | mismatch
  /-- A record lacks a field. -/
  | missingField (name : String)
  deriving DecidableEq, Repr

namespace Value

/-! ## Values of one form -/

/-- A text. -/
def asString : Value → Except DecodeError String
  | string s => .ok s
  | _ => .error .mismatch

/-- A truth value. -/
def asBool : Value → Except DecodeError Bool
  | bool b => .ok b
  | _ => .error .mismatch

/-- A size: an integer from zero up to the largest of 64 bits. -/
def asSize : Value → Except DecodeError Nat
  | int n => if 0 ≤ n ∧ n.toNat < UInt64.size then .ok n.toNat else .error .mismatch
  | _ => .error .mismatch

/-- A list. -/
def asList : Value → Except DecodeError (List Value)
  | list items => .ok items
  | _ => .error .mismatch

/-- A list of texts. -/
def asStrings (v : Value) : Except DecodeError (List String) := do
  let items ← v.asList
  items.mapM asString

/-- The name under which a date or a time, read as a record, holds its text. -/
def momentField : String := "$__toml_private_datetime"

/-- The fields of a record. A date or a time is a record with one field of its own. -/
def asFields : Value → Except DecodeError (List (String × Value))
  | record fields => .ok fields
  | moment text => .ok [(momentField, string text)]
  | _ => .error .mismatch

/-! ## Conventions -/

/-- Whether a value is no value at all. -/
def isNull : Value → Bool
  | null => true
  | _ => false

/-- Whether a value is a list without items. -/
def isEmptyList : Value → Bool
  | list items => items.isEmpty
  | _ => false

/-- Whether a value is a record without fields. -/
def isEmptyRecord : Value → Bool
  | record fields => fields.isEmpty
  | _ => false

end Value

/-- How freely a notation writes records and words. -/
structure Convention where
  /-- Whether a list that stands for a record may go on after the values of all its fields. -/
  surplus : Bool
  /-- Whether a value may stand beside a word, as the nothing that the word comes with. -/
  isUnit : Value → Bool

namespace Convention

/-- The convention of files written by hand. -/
def toml : Convention := ⟨true, fun v => v.isEmptyList || v.isEmptyRecord⟩

/-- The convention of exchanged values. -/
def json : Convention := ⟨false, Value.isNull⟩

/-- The convention within exchanged values that say of which kind they are. -/
def tagged : Convention := ⟨false, fun v => v.isNull || v.isEmptyRecord⟩

end Convention

namespace Value

/-- The fields of a record whose fields have names in a fixed order. A list stands for the record
that has its items as the values of the first fields. -/
def asRecord (c : Convention) (names : List String) :
    Value → Except DecodeError (List (String × Value))
  | list items =>
    if c.surplus || items.length ≤ names.length then .ok (names.zip items) else .error .mismatch
  | v => v.asFields

/-- A word: a text, or a record whose only field is named by the word and holds nothing. -/
def asWord (c : Convention) : Value → Except DecodeError String
  | string s => .ok s
  | record [(word, v)] => if c.isUnit v then .ok word else .error .mismatch
  | _ => .error .mismatch

/-- A value that is named by a word. -/
def asNamed {α : Type} (c : Convention) (ofWord? : String → Option α) (v : Value) :
    Except DecodeError α := do
  let word ← v.asWord c
  match ofWord? word with
  | some a => pure a
  | none => .error .mismatch

end Value

/-! ## Fields of records -/

namespace Fields

/-- The value of a field. -/
def field? (fields : List (String × Value)) (name : String) : Option Value :=
  (fields.find? (·.1 = name)).map (·.2)

/-- A field that has to be there. -/
def required {α : Type} (fields : List (String × Value)) (name : String)
    (read : Value → Except DecodeError α) : Except DecodeError α :=
  match field? fields name with
  | some v => read v
  | none => .error (.missingField name)

/-- A field that may be left out. -/
def optional {α : Type} (fields : List (String × Value)) (name : String)
    (read : Value → Except DecodeError α) : Except DecodeError (Option α) :=
  match field? fields name with
  | some v => (read v).map some
  | none => .ok none

/-- A field that may be left out or hold nothing. -/
def nullable {α : Type} (fields : List (String × Value)) (name : String)
    (read : Value → Except DecodeError α) : Except DecodeError (Option α) :=
  match field? fields name with
  | none | some .null => .ok none
  | some v => (read v).map some

end Fields

end NinjaGen
