import NinjaGen.Data.Value

/-!
# Numbers, dates and times in TOML

A value that is neither a text nor a list nor a record is written as one word (and a date may be
followed by a space and a time).

* `integer?` reads integers: decimal ones may have a sign, and those in base 16, 8 and 2 have none;
  single underscores may stand between digits; 64 bits have to suffice.
* `isDecimal` recognises numbers with a fraction or an exponent, and `inf` and `nan`; a number above
  the largest of double precision is refused.
* `moment?` reads dates and times and gives their usual form.
* `scalar?` reads any such word.
-/

namespace NinjaGen.Toml

/-! ## Digits -/

/-- Digits without the single underscores between them. -/
def ungroup? (isDigit : Char → Bool) : List Char → Option (List Char)
  | [] => none
  | [c] => if isDigit c then some [c] else none
  | c :: '_' :: r => if isDigit c then (ungroup? isDigit r).map (c :: ·) else none
  | c :: r => if isDigit c then (ungroup? isDigit r).map (c :: ·) else none

/-- The value of a digit, up to base 16. -/
def digitValue (c : Char) : Nat :=
  if c.isDigit then c.toNat - '0'.toNat
  else if 'a' ≤ c ∧ c ≤ 'f' then c.toNat - 'a'.toNat + 10
  else c.toNat - 'A'.toNat + 10

/-- The number that digits stand for. -/
def digitsValue (base : Nat) (ds : List Char) : Nat :=
  ds.foldl (fun n c => n * base + digitValue c) 0

/-- A digit of base 16. -/
def isHexDigit (c : Char) : Bool := c.isDigit || ('a' ≤ c && c ≤ 'f') || ('A' ≤ c && c ≤ 'F')

/-- A digit of base 8. -/
def isOctalDigit (c : Char) : Bool := '0' ≤ c && c ≤ '7'

/-- A digit of base 2. -/
def isBinaryDigit (c : Char) : Bool := c = '0' || c = '1'

/-! ## Integers -/

/-- The digits of a decimal number, which starts with zero only if it is zero. -/
def decimalDigits? (w : List Char) : Option (List Char) :=
  match ungroup? Char.isDigit w with
  | some ('0' :: _ :: _) => none
  | ds => ds

/-- The integer that a word stands for, of any size. -/
def anyInteger? : List Char → Option Int
  | '0' :: 'x' :: r => (ungroup? isHexDigit r).map fun ds => digitsValue 16 ds
  | '0' :: 'o' :: r => (ungroup? isOctalDigit r).map fun ds => digitsValue 8 ds
  | '0' :: 'b' :: r => (ungroup? isBinaryDigit r).map fun ds => digitsValue 2 ds
  | '+' :: r => (decimalDigits? r).map fun ds => digitsValue 10 ds
  | '-' :: r => (decimalDigits? r).map fun ds => -(digitsValue 10 ds : Int)
  | r => (decimalDigits? r).map fun ds => digitsValue 10 ds

/-- The integer that a word stands for. -/
def integer? (w : List Char) : Option Int :=
  (anyInteger? w).filter fun n => Int64.minValue.toInt ≤ n && n ≤ Int64.maxValue.toInt

/-! ## Decimal numbers -/

/-- A word that may be part of a number. -/
def isGrouped (c : Char) : Bool := c.isDigit || c = '_'

/-- The exponent of a decimal number, which may be missing. -/
def exponent? : List Char → Option Int
  | [] => some 0
  | e :: r =>
    if e = 'e' ∨ e = 'E' then
      match r with
      | '+' :: r => (ungroup? Char.isDigit r).map fun ds => digitsValue 10 ds
      | '-' :: r => (ungroup? Char.isDigit r).map fun ds => -(digitsValue 10 ds : Int)
      | r => (ungroup? Char.isDigit r).map fun ds => digitsValue 10 ds
    else none

/-- A decimal number without its sign: all its digits, and the power of ten by which the number
that they stand for is multiplied. -/
def decimalParts? (w : List Char) : Option (List Char × Int) := do
  let whole ← decimalDigits? (w.takeWhile isGrouped)
  match w.dropWhile isGrouped with
  | '.' :: r =>
    let fraction ← ungroup? Char.isDigit (r.takeWhile isGrouped)
    let exponent ← exponent? (r.dropWhile isGrouped)
    pure (whole ++ fraction, exponent - fraction.length)
  | [] => none
  | r =>
    let exponent ← exponent? r
    pure (whole, exponent)

/-- Whether `ds · 10 ^ e` rounds to more than the largest number of double precision. Numbers far
from it are told apart by their order of magnitude. -/
def overflows (ds : List Char) (e : Int) : Bool :=
  let ds := ds.dropWhile (· = '0')
  let magnitude := ds.length + e
  if ds = [] ∨ magnitude < 300 then false
  else if magnitude > 320 then true
  else
    let bound := Nat.pow 2 1024 - Nat.pow 2 970
    bound * Nat.pow 10 (-e).toNat ≤ digitsValue 10 ds * Nat.pow 10 e.toNat

/-- Whether a word is a number that is not written as an integer. -/
def isDecimal (w : List Char) : Bool :=
  let (negative, digits) := match w with
    | '+' :: r => (false, r)
    | '-' :: r => (true, r)
    | r => (false, r)
  if digits = "inf".toList ∨ digits = "nan".toList then true
  else
    match decimalParts? digits with
    | some (ds, e) => negative || !overflows ds e
    | none => false

/-! ## Dates and times -/

/-- Two digits that stand for a number from `lo` to `hi`. -/
def isTwoDigits (lo hi : Nat) (a b : Char) : Bool :=
  a.isDigit && b.isDigit && lo ≤ digitsValue 10 [a, b] && digitsValue 10 [a, b] ≤ hi

/-- The number of days of a month. -/
def daysOfMonth (year month : Nat) : Nat :=
  if month = 2 then
    if year % 4 = 0 ∧ (year % 100 ≠ 0 ∨ year % 400 = 0) then 29 else 28
  else if month = 4 ∨ month = 6 ∨ month = 9 ∨ month = 11 then 30
  else 31

/-- The date at the start of a word, and what follows it. -/
def date? : List Char → Option (List Char × List Char)
  | a :: b :: c :: d :: '-' :: m :: n :: '-' :: x :: y :: r =>
    let year := digitsValue 10 [a, b, c, d]
    let month := digitsValue 10 [m, n]
    if [a, b, c, d].all Char.isDigit && isTwoDigits 1 12 m n &&
        isTwoDigits 1 (daysOfMonth year month) x y then
      some ([a, b, c, d, '-', m, n, '-', x, y], r)
    else none
  | _ => none

/-- The fraction of a second at the start of a text, to the nanosecond and without zeros at its
end, and what follows it. -/
def fraction? : List Char → Option (List Char × List Char)
  | '.' :: r =>
    let ds := r.takeWhile Char.isDigit
    let shown := ((ds.take 9).reverse.dropWhile (· = '0')).reverse
    if ds = [] then none
    else some (if shown = [] then [] else '.' :: shown, r.dropWhile Char.isDigit)
  | r => some ([], r)

/-- The time of day at the start of a text, and what follows it. -/
def time? : List Char → Option (List Char × List Char)
  | a :: b :: ':' :: c :: d :: ':' :: e :: f :: r =>
    if isTwoDigits 0 23 a b && isTwoDigits 0 59 c d && isTwoDigits 0 60 e f then
      (fraction? r).map fun (shown, rest) => ([a, b, ':', c, d, ':', e, f] ++ shown, rest)
    else none
  | _ => none

/-- The offset of a time, which may be missing. -/
def offset? : List Char → Option (List Char)
  | [] => some []
  | ['Z'] | ['z'] => some ['Z']
  | [sign, a, b, ':', c, d] =>
    if (sign = '+' || sign = '-') && isTwoDigits 0 23 a b && isTwoDigits 0 59 c d then
      some [if [a, b, c, d].all (· = '0') then '+' else sign, a, b, ':', c, d]
    else none
  | _ => none

/-- The usual form of a date, a time, or both with an offset. -/
def moment? (w : List Char) : Option (List Char) :=
  match date? w with
  | some (date, []) => some date
  | some (date, mark :: r) => do
    if mark = 'T' ∨ mark = 't' ∨ mark = ' ' then
      let (time, r) ← time? r
      let offset ← offset? r
      pure (date ++ 'T' :: time ++ offset)
    else none
  | none =>
    match time? w with
    | some (time, []) => some time
    | _ => none

/-! ## Words -/

/-- A character of a word. -/
def isWordChar (c : Char) : Bool :=
  c.isAlphanum || c = '_' || c = '+' || c = '-' || c = '.' || c = ':'

/-- The word at the start of a text, and what follows it. A date and a word after one space are
read together. -/
def word (cs : List Char) : List Char × List Char :=
  let first := cs.takeWhile isWordChar
  let rest := cs.dropWhile isWordChar
  match date? first, rest with
  | some (_, []), ' ' :: r =>
    match r.takeWhile isWordChar with
    | [] => (first, rest)
    | second => (first ++ ' ' :: second, r.dropWhile isWordChar)
  | _, _ => (first, rest)

/-- The value that a word stands for. -/
def scalar? (w : List Char) : Option Value :=
  if w = "true".toList then some (.bool true)
  else if w = "false".toList then some (.bool false)
  else
    match moment? w with
    | some text => some (.moment (String.ofList text))
    | none =>
      match integer? w with
      | some n => some (.int n)
      | none => if isDecimal w then some (.decimal (String.ofList w)) else none

end NinjaGen.Toml
