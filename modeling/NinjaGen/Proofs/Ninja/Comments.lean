import Mathlib.Data.List.Chain
import NinjaGen.Proofs.Ninja.Breaks
import NinjaGen.Proofs.Ninja.Writing

/-!
# Comments

The words of a text are written as a comment, whatever separates them in the text.

* `words_eq_filter_splitOnP`: words stand between blanks.
* `IsFilled` says how words are filled into the lines of a comment: as many into each as it has room
  for. There is one way only (`IsFilled.unique`), and it is the one in which they are written
  (`isFilled_fillLines`).
* `comment_filled` is what follows for a comment that is written into a file.
-/

/-! ## Words -/

namespace NinjaGen.Text

theorem modifyHead_nil_append (ws : List (List Char)) :
    ws.modifyHead ([].reverse ++ ·) = ws := by
  cases ws <;> rfl

theorem wordsFrom_eq (cs : List Char) :
    ∀ word, wordsFrom word cs =
      ((cs.splitOnP isBlank).modifyHead (word.reverse ++ ·)).filter (· ≠ []) := by
  induction cs with
  | nil =>
    intro word
    by_cases hword : word = [] <;> simp [wordsFrom, hword]
  | cons c r ih =>
    intro word
    have hrest : wordsFrom [] r = (r.splitOnP isBlank).filter (· ≠ []) :=
      (ih []).trans (by rw [modifyHead_nil_append])
    rw [wordsFrom, List.splitOnP_cons_eq_if_modifyHead]
    by_cases hc : isBlank c
    · rw [if_pos hc, if_pos hc, hrest]
      by_cases hword : word = [] <;> simp [hword]
    · rw [if_neg hc, if_neg hc, ih, List.modifyHead_modifyHead]
      simp [Function.comp_def]

/-- The words of a text are what stands between its blanks, where something does. -/
theorem words_eq_filter_splitOnP (cs : List Char) :
    words cs = (cs.splitOnP isBlank).filter (· ≠ []) := by
  rw [words, wordsFrom_eq, modifyHead_nil_append]

theorem words_eq_nil_iff {cs : List Char} : words cs = [] ↔ ∀ c ∈ cs, isBlank c = true := by
  induction cs with
  | nil => exact iff_of_true rfl nofun
  | cons c r ih =>
    rw [List.forall_mem_cons]
    by_cases hc : isBlank c = true
    · rw [and_iff_right hc, ← ih, words, wordsFrom, if_pos hc, if_pos rfl, words]
    · exact iff_of_false (words_ne_nil (eq_false_of_ne_true hc) r) fun h => hc h.1

theorem mem_joinSpaces {c : Char} {ws : List (List Char)} (h : c ∈ joinSpaces ws) :
    c = ' ' ∨ ∃ w ∈ ws, c ∈ w := by
  induction ws with
  | nil => cases h
  | cons w r ih =>
    cases r with
    | nil => exact .inr ⟨w, List.mem_cons_self, by rwa [joinSpaces_singleton] at h⟩
    | cons v r =>
      rw [joinSpaces_cons_cons, List.mem_append, List.mem_cons] at h
      rcases h with h | rfl | h
      · exact .inr ⟨w, List.mem_cons_self, h⟩
      · exact .inl rfl
      · obtain rfl | ⟨u, hu, hc⟩ := ih h
        · exact .inl rfl
        · exact .inr ⟨u, List.mem_cons_of_mem w hu, hc⟩

end NinjaGen.Text

namespace NinjaGen.Ninja

open Text (width words isBlank joinSpaces fill fillLines)

/-! ## Filled lines -/

/-- **How words are filled into the lines of a comment.** -/
structure IsFilled (lineWidth : Nat) (ws : List (List Char)) (lines : List (List (List Char))) :
    Prop where
  /-- The lines hold the words in their order. -/
  flatten : lines.flatten = ws
  ne_nil : ∀ line ∈ lines, line ≠ []
  /-- A line that is too wide holds a single word. -/
  alone : ∀ line ∈ lines, lineWidth < width (commentLine line) → ∃ w, line = [w]
  /-- A line has no room for the word that the next one starts with. -/
  full : lines.IsChain fun line next =>
    ∀ w ∈ next.head?, lineWidth < width (commentLine line ++ ' ' :: w)

theorem width_commentLine (ws : List (List Char)) :
    width (commentLine ws) = 2 + width (joinSpaces ws) := by
  rw [commentLine, Text.width_append]
  rfl

theorem commentLine_append_singleton {ws : List (List Char)} (h : ws ≠ []) (w : List Char) :
    commentLine (ws ++ [w]) = commentLine ws ++ ' ' :: w := by
  rw [commentLine, commentLine, joinSpaces_append h (List.cons_ne_nil w []),
    Text.joinSpaces_singleton, List.append_assoc]

namespace IsFilled

variable {lineWidth : Nat} {ws line : List (List Char)} {lines : List (List (List Char))}

theorem head?_of_cons {next : List (List Char)} (h : IsFilled lineWidth ws (next :: lines)) :
    next.head? = ws.head? := by
  obtain ⟨w, r, rfl⟩ := List.exists_cons_of_ne_nil (h.ne_nil next List.mem_cons_self)
  rw [← h.flatten]
  rfl

theorem cons_iff :
    IsFilled lineWidth ws (line :: lines) ↔
      ∃ left, ws = line ++ left ∧ IsFilled lineWidth left lines ∧ line ≠ [] ∧
        (lineWidth < width (commentLine line) → ∃ w, line = [w]) ∧
        ∀ w ∈ left.head?, lineWidth < width (commentLine line ++ ' ' :: w) := by
  constructor
  · intro h
    obtain ⟨hne, hnes⟩ := List.forall_mem_cons.1 h.ne_nil
    obtain ⟨halone, halones⟩ := List.forall_mem_cons.1 h.alone
    obtain ⟨hfull, hfulls⟩ := List.isChain_cons.1 h.full
    have hleft : IsFilled lineWidth lines.flatten lines := ⟨rfl, hnes, halones, hfulls⟩
    refine ⟨lines.flatten, h.flatten.symm, hleft, hne, halone, fun w hw => ?_⟩
    cases lines with
    | nil => cases hw
    | cons next more => exact hfull next rfl w (hleft.head?_of_cons ▸ hw)
  · rintro ⟨left, rfl, hleft, hne, halone, hfull⟩
    refine ⟨by rw [List.flatten_cons, hleft.flatten], List.forall_mem_cons.2 ⟨hne, hleft.ne_nil⟩,
      List.forall_mem_cons.2 ⟨halone, hleft.alone⟩, List.isChain_cons.2 ⟨?_, hleft.full⟩⟩
    intro next hnext w hw
    cases lines with
    | nil => cases hnext
    | cons other more =>
      cases hnext
      exact hfull w (hleft.head?_of_cons ▸ hw)

theorem nil_iff : IsFilled lineWidth ws [] ↔ ws = [] :=
  ⟨fun h => h.flatten.symm, fun h => ⟨h.symm, nofun, nofun, .nil⟩⟩

/-- A line is not filled when one could hold more. -/
theorem eq_nil_of_append {left more rest : List (List Char)} (hline : line ≠ [])
    (hfull : ∀ w ∈ left.head?, lineWidth < width (commentLine line ++ ' ' :: w))
    (halone : lineWidth < width (commentLine (line ++ more)) → ∃ w, line ++ more = [w])
    (h : left = more ++ rest) : more = [] := by
  cases more with
  | nil => rfl
  | cons w more =>
    have hroom := hfull w (by rw [h]; rfl)
    have hle := width_joinSpaces_le_append (line ++ [w]) more
    rw [← commentLine_append_singleton hline, width_commentLine] at hroom
    rw [List.append_assoc, List.singleton_append] at hle
    obtain ⟨v, hv⟩ := halone (by rw [width_commentLine]; omega)
    have hlength := congrArg List.length hv
    have := List.length_pos_iff.2 hline
    simp only [List.length_append, List.length_cons, List.length_nil] at hlength
    omega

/-- **There is one way to fill words into lines.** -/
theorem unique {others : List (List (List Char))} (h : IsFilled lineWidth ws lines)
    (h' : IsFilled lineWidth ws others) : others = lines := by
  induction lines generalizing ws others with
  | nil =>
    obtain rfl := nil_iff.1 h
    cases others with
    | nil => rfl
    | cons other r =>
      obtain ⟨left, hws, -, hne, -⟩ := cons_iff.1 h'
      exact absurd (List.append_eq_nil_iff.1 hws.symm).1 hne
  | cons line r ih =>
    obtain ⟨left, rfl, hleft, hne, halone, hfull⟩ := cons_iff.1 h
    cases others with
    | nil => exact absurd (List.append_eq_nil_iff.1 (nil_iff.1 h')).1 hne
    | cons other r' =>
      obtain ⟨left', hws, hleft', hne', halone', hfull'⟩ := cons_iff.1 h'
      rcases List.append_eq_append_iff.1 hws with ⟨more, rfl, hmore⟩ | ⟨more, rfl, hmore⟩
      · obtain rfl := eq_nil_of_append hne hfull halone' hmore
        obtain rfl := hmore.trans (List.nil_append _)
        rw [List.append_nil, ih hleft hleft']
      · obtain rfl := eq_nil_of_append hne' hfull' halone hmore
        obtain rfl := hmore.trans (List.nil_append _)
        rw [List.append_nil, ih hleft hleft']

end IsFilled

/-- **The lines of a comment are filled.** -/
theorem isFilled_fillLines (lineWidth : Nat) (ws : List (List Char)) :
    IsFilled lineWidth ws (fillLines (lineWidth - 2) ws) := by
  fun_induction fillLines (lineWidth - 2) ws with
  | case1 => exact IsFilled.nil_iff.2 rfl
  | case2 ws hne ih =>
    obtain ⟨taken, left, hfill⟩ : ∃ taken left, fill (lineWidth - 2) ws = (taken, left) :=
      ⟨_, _, rfl⟩
    have hws := Text.fill_append (lineWidth - 2) ws
    have htaken := @Text.fill_fst_ne_nil (lineWidth - 2) ws hne
    obtain ⟨hfit, hnext⟩ := fill_spec hfill
    rw [hfill] at hws htaken ih ⊢
    dsimp only at hws htaken ih ⊢
    refine IsFilled.cons_iff.2 ⟨left, hws.symm, ih, htaken, fun hlong => ?_, fun w hw => ?_⟩
    · obtain ⟨w, r, rfl⟩ := List.exists_cons_of_ne_nil htaken
      by_cases hr : r = []
      · exact ⟨w, by rw [hr]⟩
      · have hpos := List.length_pos_iff.2 hr
        have hspace := @width_joinSpaces_append [w] r (by simp) hr
        rw [List.singleton_append] at hspace
        rw [width_commentLine] at hlong
        rw [List.length_cons] at hfit
        omega
    · have hroom := hnext w hw
      rw [← commentLine_append_singleton htaken, width_commentLine]
      omega

/-! ## The text of a comment -/

/-- Spaces are the only blanks in a comment. -/
theorem eq_space_of_mem_commentLine {ws : List (List Char)}
    (h : ∀ w ∈ ws, ∀ c ∈ w, isBlank c = false) {c : Char} (hc : c ∈ commentLine ws)
    (hblank : isBlank c = true) : c = ' ' := by
  rw [commentLine, List.mem_append] at hc
  rcases hc with hc | hc
  · rcases List.mem_cons.1 hc with rfl | hc
    · cases hblank
    · exact List.mem_singleton.1 hc
  · rcases Text.mem_joinSpaces hc with hspace | ⟨w, hw, hmem⟩
    · exact hspace
    · rw [h w hw c hmem] at hblank
      cases hblank

/-- **A comment in a file.** Whatever the width of the file and the text, the words of the text,
which stand between its blanks, are appended in filled lines, and there is one way only to fill
them. Each line is one of a comment, in which spaces are the only blanks, and is read as the words
that it holds, whatever follows. Where there are no words, nothing is appended. -/
theorem comment_filled (w : Writer) (text : String) :
    ∃ lines, w.write (.comment text) =
        (.ok none, ⟨w.lineWidth, w.text ++ lines.flatMap (commentLine · ++ ['\n'])⟩) ∧
      IsFilled w.lineWidth ((text.toList.splitOnP isBlank).filter (· ≠ [])) lines ∧
      (∀ others, IsFilled w.lineWidth ((text.toList.splitOnP isBlank).filter (· ≠ [])) others →
        others = lines) ∧
      (∀ line ∈ lines, ∀ c ∈ commentLine line, isBlank c = true → c = ' ') ∧
      physicalLines (lines.flatMap (commentLine · ++ ['\n'])) = some (lines.map commentLine) ∧
      (∀ strip, ReadBy (readLines strip) (lines.flatMap (commentLine · ++ ['\n']))
        (lines.map .comment)) ∧
      (lines = [] ↔ ∀ c ∈ text.toList, isBlank c = true) := by
  have hfilled := isFilled_fillLines w.lineWidth (words text.toList)
  have htext : w.write (.comment text) = (.ok none, ⟨w.lineWidth, w.text ++
      (fillLines (w.lineWidth - 2) (words text.toList)).flatMap (commentLine · ++ ['\n'])⟩) :=
    Writer.write_of_ok rfl
  generalize fillLines (w.lineWidth - 2) (words text.toList) = lines at hfilled htext
  have hwords : ∀ line ∈ lines, ∀ u ∈ line, ∀ c ∈ u, isBlank c = false := fun line hline u hu =>
    Text.not_isBlank_of_mem_words (hfilled.flatten ▸ List.mem_flatten.2 ⟨line, hline, hu⟩)
  have hspaces := fun line hline c => @eq_space_of_mem_commentLine line (hwords line hline) c
  rw [← Text.words_eq_filter_splitOnP, ← Text.words_eq_nil_iff]
  refine ⟨lines, htext, hfilled, fun others => hfilled.unique, hspaces, ?_, fun strip => ?_, ?_⟩
  · rw [← List.flatMap_map commentLine (· ++ ['\n'])]
    refine physicalLines_eq_some_iff.2 ⟨fun l hl hnewline => ?_, rfl⟩
    obtain ⟨line, hline, rfl⟩ := List.mem_map.1 hl
    cases hspaces line hline '\n' hnewline rfl
  · rw [List.map_eq_flatMap]
    exact .flatMap fun line hline =>
      readBy_commentLine strip (hfilled.ne_nil line hline) (hwords line hline)
  · cases lines with
    | nil => exact iff_of_true rfl hfilled.flatten.symm
    | cons line r =>
      obtain ⟨left, hws, -, hne, -⟩ := IsFilled.cons_iff.1 hfilled
      rw [hws, List.append_eq_nil_iff]
      exact iff_of_false nofun fun h => hne h.1

/-- A word that is too wide stands alone, and widths are those in bytes. -/
example : ((Writer.new 8).write (.comment "a b\u2028überlänge\n\tö d ef")).2.text =
    "# a b\n# überlänge\n# ö d\n# ef\n".toList := by
  decide +kernel

end NinjaGen.Ninja
