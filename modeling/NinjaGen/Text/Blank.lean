/-!
# Blank characters and words

A character is *blank* when it has the Unicode property `White_Space`. The blanks include every
line break (`\n`, `\r`, U+0085, U+2028, U+2029), so that the words of a text never hold one.

* `blankRanges` lists the property and `isBlank` tests it; the blanks of ASCII that the core
  library knows are among them (`isBlank_of_isWhitespace`).
* `words` are the maximal runs of characters that are not blank (`not_isBlank_of_mem_words`); there
  is one where a text starts with one (`words_ne_nil`), and a space ends it (`words_append`).
-/

namespace NinjaGen.Text

/-- The closed intervals of code points with the property `White_Space`. -/
def blankRanges : List (Nat × Nat) :=
   [(0x9, 0xd), (0x20, 0x20), (0x85, 0x85), (0xa0, 0xa0), (0x1680, 0x1680), (0x2000, 0x200a),
    (0x2028, 0x2029), (0x202f, 0x202f), (0x205f, 0x205f), (0x3000, 0x3000)]

/-- A character with the property `White_Space`. -/
def isBlank (c : Char) : Bool := blankRanges.any fun r => r.1 ≤ c.toNat && c.toNat ≤ r.2

theorem isBlank_of_isWhitespace {c : Char} (h : c.isWhitespace = true) : isBlank c = true := by
  simp only [Char.isWhitespace, Bool.or_eq_true, decide_eq_true_eq] at h
  rcases h with ((h | h) | h) | h <;> subst h <;> decide

/-! ## Words -/

/-- The words of a text that follows `word`, the part read so far of a word, last character
first. -/
def wordsFrom (word : List Char) : List Char → List (List Char)
  | [] => if word = [] then [] else [word.reverse]
  | c :: r =>
    if isBlank c then
      if word = [] then wordsFrom [] r else word.reverse :: wordsFrom [] r
    else wordsFrom (c :: word) r

/-- The maximal runs of characters that are not blank, in order. -/
def words (cs : List Char) : List (List Char) := wordsFrom [] cs

theorem wordsFrom_ne_nil {word : List Char} (h : word ≠ []) (cs : List Char) :
    wordsFrom word cs ≠ [] := by
  induction cs generalizing word with
  | nil => simp [wordsFrom, h]
  | cons c r ih =>
    by_cases hc : isBlank c
    · simp [wordsFrom, hc, h]
    · simpa [wordsFrom, hc] using ih (List.cons_ne_nil c word)

theorem words_ne_nil {c : Char} (h : isBlank c = false) (r : List Char) : words (c :: r) ≠ [] := by
  simpa [words, wordsFrom, h] using wordsFrom_ne_nil (List.cons_ne_nil c []) r

theorem not_isBlank_of_mem_wordsFrom {w : List Char} (cs : List Char) :
    ∀ word, (∀ c ∈ word, isBlank c = false) → w ∈ wordsFrom word cs →
      ∀ c ∈ w, isBlank c = false := by
  induction cs with
  | nil =>
    intro word hword h
    by_cases hw : word = [] <;> simp_all [wordsFrom]
  | cons c r ih =>
    intro word hword h
    by_cases hc : isBlank c
    · by_cases hw : word = [] <;> simp [wordsFrom, hc, hw] at h
      · exact ih [] (by simp) h
      · rcases h with rfl | h
        · simpa using hword
        · exact ih [] (by simp) h
    · have hc' : isBlank c = false := by simpa using hc
      simp only [wordsFrom, hc', Bool.false_eq_true, if_false] at h
      refine ih _ ?_ h
      intro d hd
      rcases List.mem_cons.1 hd with rfl | hd
      · exact hc'
      · exact hword d hd

theorem not_isBlank_of_mem_words {w cs : List Char} (h : w ∈ words cs) :
    ∀ c ∈ w, isBlank c = false :=
  not_isBlank_of_mem_wordsFrom cs [] (by simp) h

theorem wordsFrom_append {w : List Char} (h : ∀ c ∈ w, isBlank c = false) (word r : List Char) :
    wordsFrom word (w ++ r) = wordsFrom (w.reverse ++ word) r := by
  induction w generalizing word with
  | nil => rfl
  | cons c w ih =>
    obtain ⟨hc, hw⟩ := List.forall_mem_cons.1 h
    rw [List.cons_append, wordsFrom, hc, if_neg Bool.false_ne_true, ih hw, List.reverse_cons,
      List.append_assoc]
    rfl

theorem words_singleton {w : List Char} (hne : w ≠ []) (h : ∀ c ∈ w, isBlank c = false) :
    words w = [w] := by
  have hread := wordsFrom_append h [] []
  rw [List.append_nil] at hread
  rw [words, hread, wordsFrom, List.append_nil, if_neg (by simpa using hne), List.reverse_reverse]

theorem words_append {w : List Char} (hne : w ≠ []) (h : ∀ c ∈ w, isBlank c = false)
    (r : List Char) : words (w ++ ' ' :: r) = w :: words r := by
  have hspace : isBlank ' ' = true := by decide
  rw [words, wordsFrom_append h, wordsFrom, if_pos hspace, List.append_nil,
    if_neg (by simpa using hne), List.reverse_reverse, words]

end NinjaGen.Text
