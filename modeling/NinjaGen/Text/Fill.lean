import NinjaGen.Text.Blank
import NinjaGen.Text.Width

/-!
# Filling lines

A line holds items separated by single spaces. Filling is greedy: a line takes as many of the
items that remain as its limit admits, and always one.

* `joinSpaces` writes items with one space between two of them; words are found again
  (`words_joinSpaces`).
* `fits` says whether items fit into what is left of a line (`fits_iff`).
* `fill limit items` is the longest start of `items` that fits, and the rest (`fill_append`); the
  start holds an item whenever there is one (`fill_fst_ne_nil`), so the rest is shorter
  (`length_fill_snd_lt`).
* `fillLines limit items` fills lines until no item is left; nothing is lost or reordered
  (`flatten_fillLines`), and no line is empty (`ne_nil_of_mem_fillLines`).
-/

namespace NinjaGen.Text

/-- Items with one space between two of them. -/
def joinSpaces (items : List (List Char)) : List Char := [' '].intercalate items

@[simp] theorem joinSpaces_nil : joinSpaces [] = [] := rfl

@[simp] theorem joinSpaces_singleton (w : List Char) : joinSpaces [w] = w := by
  simp [joinSpaces, List.intercalate]

theorem joinSpaces_cons_cons (w v : List Char) (r : List (List Char)) :
    joinSpaces (w :: v :: r) = w ++ ' ' :: joinSpaces (v :: r) := by
  simp [joinSpaces, List.intercalate]

theorem words_joinSpaces {ws : List (List Char)}
    (h : ∀ w ∈ ws, w ≠ [] ∧ ∀ c ∈ w, isBlank c = false) : words (joinSpaces ws) = ws := by
  induction ws with
  | nil => rfl
  | cons w ws ih =>
    obtain ⟨⟨hne, hw⟩, hws⟩ := List.forall_mem_cons.1 h
    cases ws with
    | nil => rw [joinSpaces_singleton, words_singleton hne hw]
    | cons v r => rw [joinSpaces_cons_cons, words_append hne hw, ih hws]

/-! ## Whether items fit -/

/-- Whether items fit behind what is `used` of a line already. Only as much is measured as there is
room for. -/
def fits (limit used : Nat) : List (List Char) → Bool
  | [] => used ≤ limit
  | [w] => used + width w ≤ limit
  | w :: r => used + width w + 1 ≤ limit && fits limit (used + width w + 1) r

theorem fits_iff {limit used : Nat} {items : List (List Char)} :
    fits limit used items = true ↔ used + width (joinSpaces items) ≤ limit := by
  fun_induction fits limit used items with
  | case1 => simp
  | case2 => simp
  | case3 used w r hr ih =>
    obtain ⟨v, r, rfl⟩ := List.exists_cons_of_ne_nil fun h => hr h
    rw [Bool.and_eq_true, ih, decide_eq_true_eq, joinSpaces_cons_cons]
    have hspace : Char.utf8Size ' ' = 1 := by decide
    simp only [Text.width_append, Text.width_cons, hspace]
    omega

/-! ## One line -/

/-- The items that a line of width `used` takes up to `limit`, and those it leaves. -/
def fillFrom (limit used : Nat) : List (List Char) → List (List Char) × List (List Char)
  | [] => ([], [])
  | w :: r =>
    if used + 1 + width w ≤ limit then
      let (taken, left) := fillFrom limit (used + 1 + width w) r
      (w :: taken, left)
    else ([], w :: r)

/-- The items that go on one line, and those that are left. The first item always goes. -/
def fill (limit : Nat) : List (List Char) → List (List Char) × List (List Char)
  | [] => ([], [])
  | w :: r =>
    let (taken, left) := fillFrom limit (width w) r
    (w :: taken, left)

theorem fillFrom_append (limit : Nat) (items : List (List Char)) :
    ∀ used, (fillFrom limit used items).1 ++ (fillFrom limit used items).2 = items := by
  induction items with
  | nil => intro used; rfl
  | cons w r ih =>
    intro used
    by_cases h : used + 1 + width w ≤ limit
    · simp [fillFrom, h, ih]
    · simp [fillFrom, h]

theorem fill_append (limit : Nat) (items : List (List Char)) :
    (fill limit items).1 ++ (fill limit items).2 = items := by
  cases items with
  | nil => rfl
  | cons w r => simp [fill, fillFrom_append]

theorem fill_fst_ne_nil {limit : Nat} {items : List (List Char)} (h : items ≠ []) :
    (fill limit items).1 ≠ [] := by
  cases items with
  | nil => exact absurd rfl h
  | cons w r => simp [fill]

theorem length_fill_snd_lt {limit : Nat} {items : List (List Char)} (h : items ≠ []) :
    (fill limit items).2.length < items.length := by
  have hlen := congrArg List.length (fill_append limit items)
  have hpos := List.length_pos_iff.2 (@fill_fst_ne_nil limit items h)
  simp only [List.length_append] at hlen
  omega

/-! ## All lines -/

/-- The lines of a text, each as the list of its items. -/
def fillLines (limit : Nat) (items : List (List Char)) : List (List (List Char)) :=
  if _h : items = [] then [] else (fill limit items).1 :: fillLines limit (fill limit items).2
termination_by items.length
decreasing_by exact length_fill_snd_lt _h

theorem flatten_fillLines (limit : Nat) (items : List (List Char)) :
    (fillLines limit items).flatten = items := by
  fun_induction fillLines limit items with
  | case1 => rfl
  | case2 items h ih => simp [ih, fill_append]

theorem ne_nil_of_mem_fillLines {limit : Nat} {line : List (List Char)} (items : List (List Char)) :
    line ∈ fillLines limit items → line ≠ [] := by
  fun_induction fillLines limit items with
  | case1 => simp
  | case2 items h ih =>
    intro hl
    rcases List.mem_cons.1 hl with rfl | hl
    · exact fill_fst_ne_nil h
    · exact ih hl

end NinjaGen.Text
