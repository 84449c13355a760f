import NinjaGen.Text.Printable

/-!
# Quoted text

The quoted form of a text shows every character on one line: it stands between double quotes, and
a character that would not show is written as an escape.

* `escapeChar` is the form of one character; `quoted` is the form of a text.
* `hexDigits` writes a number in the base of the numeric escapes.
-/

namespace NinjaGen.Text

/-- The lower-case hexadecimal digits of a number, without leading zeros. -/
def hexDigits (n : Nat) : List Char := Nat.toDigits 16 n

/-- The quoted form of a character: the short escapes for the quote, the backslash and the common
controls, `\u{…}` for what would not show, and the character itself otherwise. -/
def escapeChar (c : Char) : List Char :=
  match c with
  | '"' => ['\\', '"']
  | '\\' => ['\\', '\\']
  | '\n' => ['\\', 'n']
  | '\r' => ['\\', 'r']
  | '\t' => ['\\', 't']
  | '\x00' => ['\\', '0']
  | c =>
    if extendsGrapheme c || !isPrintable c then
      ['\\', 'u', '\x7b'] ++ hexDigits c.toNat ++ ['\x7d']
    else [c]

/-- The quoted form of a text. -/
def quoted (s : String) : String :=
  String.ofList ('"' :: s.toList.flatMap escapeChar ++ ['"'])

end NinjaGen.Text
