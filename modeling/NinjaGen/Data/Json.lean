import NinjaGen.Data.Value
import NinjaGen.Text.Quoted

/-!
# JSON

Values are shown in the JSON notation, one item or field to a line, each level indented by two
spaces.

* `quote` is the notation of a text.
* `Value.json` is the notation of a value. A date or a time, for which there is no notation, is
  shown as its text.
-/

namespace NinjaGen.Json

/-! ## Texts -/

/-- The escape of a control character by its number. -/
def numbered (c : Char) : List Char :=
  let digits := Text.hexDigits c.toNat
  ['\\', 'u'] ++ List.replicate (4 - digits.length) '0' ++ digits

/-- The notation of a character in a text. -/
def escapeChar (c : Char) : List Char :=
  match c with
  | '"' => ['\\', '"']
  | '\\' => ['\\', '\\']
  | '\n' => ['\\', 'n']
  | '\r' => ['\\', 'r']
  | '\t' => ['\\', 't']
  | '\x08' => ['\\', 'b']
  | '\x0c' => ['\\', 'f']
  | c => if c.toNat < 32 then numbered c else [c]

/-- The notation of a text. -/
def quote (s : String) : List Char := '"' :: s.toList.flatMap escapeChar ++ ['"']

/-! ## Values -/

/-- The start of a line at a level. -/
def newline (level : Nat) : List Char := '\n' :: List.replicate (2 * level) ' '

/-- Lines between brackets; without lines the brackets stand together. -/
def block (level : Nat) (opening closing : Char) (lines : List (List Char)) : List Char :=
  match lines with
  | [] => [opening, closing]
  | _ =>
    [opening] ++ newline (level + 1) ++
      (',' :: newline (level + 1)).intercalate lines ++ newline level ++ [closing]

mutual

/-- The notation of a value at a level. -/
def valueText (level : Nat) : Value → List Char
  | .null => "null".toList
  | .bool b => if b then "true".toList else "false".toList
  | .int n => (toString n).toList
  | .decimal text => text.toList
  | .string s => quote s
  | .moment text => quote text
  | .list items => block level '[' ']' (itemTexts (level + 1) items)
  | .record fields => block level '\x7b' '\x7d' (fieldTexts (level + 1) fields)

/-- The notations of the items of a list. -/
def itemTexts (level : Nat) : List Value → List (List Char)
  | [] => []
  | v :: r => valueText level v :: itemTexts level r

/-- The notations of the fields of a record. -/
def fieldTexts (level : Nat) : List (String × Value) → List (List Char)
  | [] => []
  | (name, v) :: r => (quote name ++ [':', ' '] ++ valueText level v) :: fieldTexts level r

end

end NinjaGen.Json

/-- The JSON notation of a value. -/
def NinjaGen.Value.json (v : NinjaGen.Value) : String := String.ofList (NinjaGen.Json.valueText 0 v)
