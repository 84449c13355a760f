import NinjaGen.Text.Fill

/-!
# Wrapping lines

A line of a Ninja file can be continued: where a space separates two items, the line may end in
` $`, and the next line goes on with the second item. A space after an odd run of `$` belongs to a
path and separates nothing.

* `items` cuts a text at its separating spaces; joined again they are the text
  (`joinSpaces_items`), and there is always one (`items_ne_nil`).
* `chunks` is what each physical line holds of the text: as many items as leave room for the
  continuation mark, and always one; together they hold all items in order (`flatten_chunks`).
* `wrap` lays the chunks out, those after the first indented by two more levels.
-/

namespace NinjaGen.Ninja

open Text (fits joinSpaces fill)

/-! ## Items -/

/-- The items of a text, after an odd run of `$` if `odd` holds and after an even one otherwise;
the first is the rest of the item that has begun. -/
def itemsFrom (odd : Bool) : List Char → List (List Char)
  | [] => [[]]
  | c :: r =>
    if c = ' ' ∧ odd = false then [] :: itemsFrom false r
    else
      match itemsFrom (c = '$' && !odd) r with
      | [] => [[c]]
      | item :: more => (c :: item) :: more

/-- The items of a text. -/
def items (cs : List Char) : List (List Char) := itemsFrom false cs

theorem itemsFrom_ne_nil (odd : Bool) (cs : List Char) : itemsFrom odd cs ≠ [] := by
  cases cs with
  | nil => simp [itemsFrom]
  | cons c r =>
    unfold itemsFrom
    split
    · simp
    · split <;> simp

theorem items_ne_nil (cs : List Char) : items cs ≠ [] := itemsFrom_ne_nil false cs

theorem joinSpaces_itemsFrom (cs : List Char) :
    ∀ odd, joinSpaces (itemsFrom odd cs) = cs := by
  induction cs with
  | nil => intro odd; simp [itemsFrom]
  | cons c r ih =>
    intro odd
    unfold itemsFrom
    split
    next h =>
      obtain ⟨item, more, hr⟩ := List.exists_cons_of_ne_nil (itemsFrom_ne_nil false r)
      rw [hr, Text.joinSpaces_cons_cons, ← hr, ih, h.1, List.nil_append]
    next h =>
      split
      next hr => exact absurd hr (itemsFrom_ne_nil _ r)
      next item more hr =>
        have hj := ih (c = '$' && !odd)
        rw [hr] at hj
        cases more with
        | nil => simpa using hj
        | cons next more =>
          rw [Text.joinSpaces_cons_cons] at hj ⊢
          rw [← hj, List.cons_append]

theorem joinSpaces_items (cs : List Char) : joinSpaces (items cs) = cs :=
  joinSpaces_itemsFrom cs false

/-! ## Physical lines -/

/-- The spaces in front of a line: two for each level. -/
def indentation (level : Nat) : List Char := List.replicate (2 * level) ' '

/-- The share of each physical line in the items of a line, the first of which is indented by
`level` and the others by `further`. What is left goes on one line if it fits into `lineWidth`; a
line that is continued keeps at least one column free besides its mark. -/
def chunks (lineWidth level further : Nat) (rest : List (List Char)) : List (List (List Char)) :=
  let indent := 2 * level
  if fits lineWidth indent rest then [rest]
  else
    match _h : fill (lineWidth - (indent + 2) - 1) rest with
    | (taken, []) => [taken]
    | (taken, item :: more) => taken :: chunks lineWidth further further (item :: more)
termination_by rest.length
decreasing_by
  have hne : rest ≠ [] := by rintro rfl; simp [fill] at _h
  have := @Text.length_fill_snd_lt (lineWidth - (indent + 2) - 1) rest hne
  rw [_h] at this
  exact this

theorem flatten_chunks (lineWidth level further : Nat) (rest : List (List Char)) :
    (chunks lineWidth level further rest).flatten = rest := by
  fun_induction chunks lineWidth level further rest with
  | case1 => simp
  | case2 level rest indent h taken hf =>
    have := Text.fill_append (lineWidth - (indent + 2) - 1) rest
    rw [hf] at this
    simpa using this
  | case3 level rest indent h taken item more hf ih =>
    have := Text.fill_append (lineWidth - (indent + 2) - 1) rest
    rw [hf] at this
    simpa [ih] using this

/-- The text of physical lines, the first of which is indented by `level` and the others by
`further`. Every line but the last carries the continuation mark. -/
def layOut (level further : Nat) : List (List (List Char)) → List Char
  | [] => []
  | [last] => indentation level ++ joinSpaces last ++ ['\n']
  | chunk :: more =>
    indentation level ++ joinSpaces chunk ++ [' ', '$', '\n'] ++ layOut further further more

/-- A line of a file, indented by `level` and wrapped at `lineWidth`. -/
def wrap (lineWidth level : Nat) (cs : List Char) : List Char :=
  layOut level (level + 2) (chunks lineWidth level (level + 2) (items cs))

end NinjaGen.Ninja
