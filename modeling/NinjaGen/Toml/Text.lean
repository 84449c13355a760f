import NinjaGen.Toml.Scalar

/-!
# Texts in TOML

A text stands in double quotes, where a backslash starts an escape, or in single quotes, where
every character stands for itself. With three quotes on either side it may have several lines.

* `basicText`, `literalText`, `basicLines` and `literalLines` read what follows the opening quotes
  of the four forms: the text and what follows the closing quotes.
* `text?` reads a text of any form.
-/

namespace NinjaGen.Toml

/-- A character that may stand in a text or a comment. -/
def isTextChar (c : Char) : Bool := c = '\t' || (' ' ≤ c && c ≠ '\x7f')

/-- A blank within a line. -/
def isBlankChar (c : Char) : Bool := c = ' ' || c = '\t'

/-- What follows a line break at the start of a text. -/
def lineBreak? : List Char → Option (List Char)
  | '\n' :: r => some r
  | '\r' :: '\n' :: r => some r
  | _ => none

/-! ## Escapes -/

/-- The character with the number that hexadecimal digits stand for. -/
def numberedChar? (digits : List Char) : Option Char :=
  let n := digitsValue 16 digits
  if digits.all isHexDigit ∧ n.isValidChar then some (Char.ofNat n) else none

/-- The character that an escape stands for, and what follows the escape. -/
def escapedChar? : List Char → Option (Char × List Char)
  | 'b' :: r => some ('\x08', r)
  | 't' :: r => some ('\t', r)
  | 'n' :: r => some ('\n', r)
  | 'f' :: r => some ('\x0c', r)
  | 'r' :: r => some ('\r', r)
  | '"' :: r => some ('"', r)
  | '\\' :: r => some ('\\', r)
  | 'u' :: a :: b :: c :: d :: r => (numberedChar? [a, b, c, d]).map fun x => (x, r)
  | 'U' :: a :: b :: c :: d :: e :: f :: g :: h :: r =>
    (numberedChar? [a, b, c, d, e, f, g, h]).map fun x => (x, r)
  | _ => none

theorem length_lt_of_escapedChar? {cs rest : List Char} {c : Char}
    (h : escapedChar? cs = some (c, rest)) : rest.length < cs.length := by
  unfold escapedChar? at h
  split at h
  all_goals
    simp only [Option.some.injEq, Prod.mk.injEq, Option.map_eq_some_iff, reduceCtorEq] at h
  all_goals first
    | (obtain ⟨-, rfl⟩ := h; simp only [List.length_cons]; omega)
    | (obtain ⟨x, -, -, rfl⟩ := h; simp only [List.length_cons]; omega)

/-! ## Texts on one line -/

/-- A text in double quotes. -/
def basicText (cs : List Char) : Option (List Char × List Char) :=
  match cs with
  | [] => none
  | '"' :: r => some ([], r)
  | '\\' :: r =>
    match _h : escapedChar? r with
    | some (c, r') => (basicText r').map fun (s, rest) => (c :: s, rest)
    | none => none
  | c :: r =>
    if isTextChar c then (basicText r).map fun (s, rest) => (c :: s, rest) else none
termination_by cs.length
decreasing_by
  · have := length_lt_of_escapedChar? _h
    simp only [List.length_cons]
    omega
  · simp

/-- A text in single quotes. -/
def literalText : List Char → Option (List Char × List Char)
  | [] => none
  | '\'' :: r => some ([], r)
  | c :: r =>
    if isTextChar c then (literalText r).map fun (s, rest) => (c :: s, rest) else none

/-! ## Texts on several lines -/

/-- A text in three double quotes. After a backslash at the end of a line, blanks and line breaks
are `skipped`; one or two quotes may stand before the closing ones. -/
def basicLines (skipped : Bool) (cs : List Char) : Option (List Char × List Char) :=
  match cs with
  | [] => none
  | '"' :: '"' :: '"' :: '"' :: '"' :: r => some (['"', '"'], r)
  | '"' :: '"' :: '"' :: '"' :: r => some (['"'], r)
  | '"' :: '"' :: '"' :: r => some ([], r)
  | '\\' :: r =>
    if (lineBreak? (r.dropWhile isBlankChar)).isSome then basicLines true r
    else
      match _h : escapedChar? r with
      | some (c, r') => (basicLines false r').map fun (s, rest) => (c :: s, rest)
      | none => none
  | '\r' :: '\n' :: r =>
    if skipped then basicLines true r
    else (basicLines false r).map fun (s, rest) => ('\n' :: s, rest)
  | c :: r =>
    if skipped && (isBlankChar c || c = '\n') then basicLines true r
    else if isTextChar c || c = '\n' then
      (basicLines false r).map fun (s, rest) => (c :: s, rest)
    else none
termination_by cs.length
decreasing_by
  all_goals first
    | (have hlen := length_lt_of_escapedChar? _h; simp only [List.length_cons]; omega)
    | (simp only [List.length_cons]; omega)

/-- A text in three single quotes. -/
def literalLines : List Char → Option (List Char × List Char)
  | [] => none
  | '\'' :: '\'' :: '\'' :: '\'' :: '\'' :: r => some (['\'', '\''], r)
  | '\'' :: '\'' :: '\'' :: '\'' :: r => some (['\''], r)
  | '\'' :: '\'' :: '\'' :: r => some ([], r)
  | '\r' :: '\n' :: r => (literalLines r).map fun (s, rest) => ('\n' :: s, rest)
  | c :: r =>
    if isTextChar c || c = '\n' then (literalLines r).map fun (s, rest) => (c :: s, rest) else none

/-! ## Texts of any form -/

/-- The text at the start of a text, and what follows it. A line break right after three opening
quotes is left out. -/
def text? : List Char → Option (List Char × List Char)
  | '"' :: '"' :: '"' :: r => basicLines false ((lineBreak? r).getD r)
  | '\'' :: '\'' :: '\'' :: r => literalLines ((lineBreak? r).getD r)
  | '"' :: r => basicText r
  | '\'' :: r => literalText r
  | _ => none

end NinjaGen.Toml
