import NinjaGen.Text.Quoted

/-!
# Text for a terminal

A notice may hold texts from outside, and some control characters in them would steer a terminal:
the bell, the backspace, the form feed, the escape, the delete character and the controls from
U+0080 to U+009F. Such characters are written as escapes.

* `isSteering` says which characters these are, and `visible` is the form of a text without them.
  Any other text stays as it is (`visible_of_forall`).
-/

namespace NinjaGen.Text

/-- A control of one byte that steers a terminal. -/
def isShortControl (c : Char) : Bool :=
  c = '\x07' || c = '\x08' || c = '\x0c' || c = '\x1b' || c = '\x7f'

/-- A control of two bytes. -/
def isLongControl (c : Char) : Bool := '\x80' ≤ c && c ≤ '\u009f'

/-- A character that steers a terminal. -/
def isSteering (c : Char) : Bool := isShortControl c || isLongControl c

/-- The form of a character on a terminal: `\x` and two digits for a control of one byte, `\u{…}`
for one of two bytes, and the character itself otherwise. -/
def visibleChar (c : Char) : List Char :=
  if isShortControl c then
    ['\\', 'x', Nat.digitChar (c.toNat / 16), Nat.digitChar (c.toNat % 16)]
  else if isLongControl c then ['\\', 'u', '\x7b'] ++ hexDigits c.toNat ++ ['\x7d']
  else [c]

/-- The form of a text on a terminal. -/
def visible (s : String) : String := String.ofList (s.toList.flatMap visibleChar)

theorem visibleChar_of_not_isSteering {c : Char} (h : isSteering c = false) :
    visibleChar c = [c] := by
  simp only [isSteering, Bool.or_eq_false_iff] at h
  simp [visibleChar, h.1, h.2]

/-- A text that does not steer a terminal stays as it is. -/
theorem visible_of_forall {s : String} (h : ∀ c ∈ s.toList, isSteering c = false) :
    visible s = s := by
  have key : ∀ cs : List Char, (∀ c ∈ cs, isSteering c = false) →
      cs.flatMap visibleChar = cs := by
    intro cs
    induction cs with
    | nil => simp
    | cons c r ih =>
      intro h
      rw [List.flatMap_cons, visibleChar_of_not_isSteering (h c (by simp)),
        ih fun d hd => h d (by simp [hd])]
      rfl
  rw [visible, key _ h, String.ofList_toList]

end NinjaGen.Text
