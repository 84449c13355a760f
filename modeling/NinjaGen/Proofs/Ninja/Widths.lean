import NinjaGen.Proofs.Ninja.Reading

/-!
# Reading at all widths

A file says at every width what it says at any other, except for the values of some variables.

* `readFile` reads all statements of a file, each from its pieces (`readFile_flatMap_write`).
* A statement `IsStable` if it is read alike at all widths. A statement that gives no variable a
  value is; a variable is exactly when no two spaces of its value follow each other, those at its
  start apart (`isStable_assignment_iff`).
* `Statement.readFile_eq_iff`: a file is read alike at all widths exactly when all its variables
  are.
-/

namespace NinjaGen.Ninja

open Text (words)

/-! ## Files -/

/-- The level and the text of a statement. -/
def LogicalLine.statement? : LogicalLine → Option (Nat × List Char)
  | statement level text => some (level, text)
  | _ => none

/-- **All statements of a file**, as Ninja reads them. -/
def readFile (cs : List Char) : Option (List (Option Meaning)) :=
  (readLines afterSpaces cs).map fun ls =>
    (ls.filterMap LogicalLine.statement?).map fun s => readStatement s.1 s.2

/-- A statement as it is read at a width. -/
def readAt (lineWidth : Nat) (s : Nat × List Char) : Option Meaning :=
  readStatement s.1 (joinPieces skipSpaces (piecesAt lineWidth s.1 s.2))

theorem filterMap_readAs (g : List Char → List Char) (lineWidth : Nat) (ls : List LogicalLine) :
    (ls.flatMap (·.readAs g lineWidth)).filterMap LogicalLine.statement? =
      (ls.filterMap LogicalLine.statement?).map
        fun s => (s.1, joinPieces g (piecesAt lineWidth s.1 s.2)) := by
  induction ls with
  | nil => rfl
  | cons l r ih =>
    rw [List.flatMap_cons, List.filterMap_append, ih]
    cases l with
    | blank | statement => rfl
    | comment ws =>
      have hcomment : ((LogicalLine.comment ws).readAs g lineWidth).filterMap
          LogicalLine.statement? = [] := by
        rw [LogicalLine.readAs, List.filterMap_map]
        exact List.filterMap_eq_nil_iff.2 fun _ _ => rfl
      rw [hcomment]
      rfl

/-- **A file is read statement by statement.** -/
theorem readFile_flatMap_write (lineWidth : Nat) {ls : List LogicalLine} (h : ∀ l ∈ ls, l.Sound) :
    readFile (ls.flatMap (·.write lineWidth)) =
      some ((ls.filterMap LogicalLine.statement?).map (readAt lineWidth)) := by
  rw [readFile, readLines_flatMap_write strips_afterSpaces lineWidth h, Option.map_some,
    filterMap_readAs, List.map_map]
  rfl

theorem oddAfter_of_mem_statements {ls : List LogicalLine} (h : ∀ l ∈ ls, l.Sound) :
    ∀ s ∈ ls.filterMap LogicalLine.statement?, oddAfter false s.2 = false := by
  intro s hs
  obtain ⟨l, hl, hls⟩ := List.mem_filterMap.1 hs
  have hsound := h l hl
  cases l with
  | blank | comment => cases hls
  | statement level text =>
    cases hls
    exact hsound.1.2

/-- What is read of a line is thinned. -/
theorem thinned_at (lineWidth level : Nat) {text : List Char} (h : oddAfter false text = false) :
    Thinned false false text (joinPieces skipSpaces (piecesAt lineWidth level text)) := by
  have hthinned := thinned_joinPieces (broken_piecesAt lineWidth level text)
  rw [flatten_piecesAt] at hthinned
  exact hthinned h

/-- Whether a statement is read alike at all widths. -/
def IsStable (s : Nat × List Char) : Prop := ∀ w₁ w₂, readAt w₁ s = readAt w₂ s

/-- At every width a statement says the same but for the length of the runs of spaces in a value. -/
theorem squeezed_readAt (lineWidth : Nat) {s : Nat × List Char} (h : oddAfter false s.2 = false) :
    (readAt lineWidth s).map Meaning.squeezed = (readStatement s.1 s.2).map Meaning.squeezed :=
  (squeezed_readStatement s.1 (thinned_at lineWidth s.1 h)).symm

theorem isStable_of_not_isAssignment {s : Nat × List Char} (h : oddAfter false s.2 = false)
    (hs : ∀ m ∈ readStatement s.1 s.2, ¬ m.IsAssignment) : IsStable s := by
  intro w₁ w₂
  rw [readAt, readAt, readStatement_eq s.1 (thinned_at w₁ s.1 h) hs,
    readStatement_eq s.1 (thinned_at w₂ s.1 h) hs]

theorem toList_assignment (v : String × String) :
    (v.1 ++ " = " ++ v.2).toList = v.1.toList ++ ' ' :: '=' :: ' ' :: v.2.toList := by
  simp only [String.toList_append, List.append_assoc]
  rfl

section Assignment

variable {level : Nat} {v : String × String} (hv : IsAssignment v)
  (hlevel : level = 0 → v.1 ∉ keywords)

include hv hlevel

/-- At every width, the value of a variable is read but for spaces that follow others. -/
theorem readAt_assignment (lineWidth : Nat) :
    ∃ u, u <:+ joinPieces skipSpaces (piecesAt lineWidth level (v.1 ++ " = " ++ v.2).toList) ∧
      Thinned false false (skipSpaces v.2.toList) u ∧
      readAt lineWidth (level, (v.1 ++ " = " ++ v.2).toList) =
        some (.assignment level v.1 (parts u)) := by
  have hthinned := thinned_at lineWidth level hv.isValue_text.1.2
  rw [readAt]
  dsimp only
  generalize joinPieces skipSpaces (piecesAt lineWidth level (v.1 ++ " = " ++ v.2).toList) = j
    at hthinned
  rw [toList_assignment] at hthinned
  obtain ⟨j₁, rfl, h₁⟩ := hthinned.of_append (hv.1.not_mem (by decide))
  rw [hv.1.isValue.1.2] at h₁
  obtain ⟨j₂, rfl, h₂⟩ := h₁.of_space
  obtain ⟨j₃, rfl, h₃⟩ := h₂.of_cons (c := '=') (by decide)
  obtain ⟨j₄, rfl, h₄⟩ := h₃.of_space
  refine ⟨skipSpaces j₄, ?_, h₄.skip, readStatement_assignment hv.1 hlevel j₄⟩
  have hsuffix : j₄ <:+ v.1.toList ++ ' ' :: '=' :: ' ' :: j₄ := by
    simpa using List.suffix_append (v.1.toList ++ [' ', '=', ' ']) j₄
  exact (skipSpaces_suffix j₄).trans hsuffix

/-- **The value of a variable is read alike at all widths exactly when no two of its spaces follow
each other**, those at its start apart. -/
theorem isStable_assignment_iff :
    IsStable (level, (v.1 ++ " = " ++ v.2).toList) ↔ SingleSpaced (skipSpaces v.2.toList) := by
  constructor
  · -- at width 0 no two spaces are left, and a line that fits is read whole
    intro h
    obtain ⟨u, hsuffix, hthinned, hread⟩ := readAt_assignment hv hlevel 0
    have hsingle : SingleSpaced u :=
      (singleSpaced_joinPieces_zero level hv.isValue_text.2).suffix hsuffix
    have hwhole : readAt (2 * level + Text.width (v.1 ++ " = " ++ v.2).toList)
        (level, (v.1 ++ " = " ++ v.2).toList) =
          some (.assignment level v.1 (parts (skipSpaces v.2.toList))) := by
      rw [readAt, joinPieces_piecesAt_of_fits skipSpaces le_rfl, toList_assignment]
      exact readStatement_assignment hv.1 hlevel _
    have hparts : parts u = parts (skipSpaces v.2.toList) := by
      have heq := hread.symm.trans ((h _ _).trans hwhole)
      simpa using heq
    have hcount := congrArg (List.count (Part.char ' ')) hparts
    rw [count_parts, count_parts] at hcount
    rwa [hthinned.eq_of_count.2 hcount] at hsingle
  · intro h
    have hread : ∀ w, readAt w (level, (v.1 ++ " = " ++ v.2).toList) =
        some (.assignment level v.1 (parts (skipSpaces v.2.toList))) := by
      intro w
      obtain ⟨u, -, hthinned, hread⟩ := readAt_assignment hv hlevel w
      rw [hread, hthinned.eq_of_singleSpaced h (by simp)]
    intro w₁ w₂
    rw [hread, hread]

end Assignment

/-! ## Statements -/

namespace Statement

/-- The lines of a statement besides those of its variables. -/
def head : Statement → List LogicalLine
  | blank => [.blank]
  | comment text => [.comment (words text.toList)]
  | assign _ _ _ | list _ _ _ => []
  | pool name _ => [.statement 0 ("pool " ++ name).toList]
  | rule name _ _ => [.statement 0 ("rule " ++ name).toList]
  | build e => [.statement 0 e.text.toList]
  | includeFile path => [.statement 0 ("include " ++ escapedPath path).toList]
  | subninja path => [.statement 0 ("subninja " ++ escapedPath path).toList]
  | defaults paths =>
    if paths = [] then []
    else [.statement 0 ("default " ++ " ".intercalate (paths.map escapedPath)).toList]

/-- The variables of a statement, each with its level, name and value. -/
def bindings : Statement → List (Nat × String × String)
  | assign key value level => [(level, key, value)]
  | list key values level => [(level, key, joinValues values)]
  | pool _ depth => [(1, "depth", toString depth)]
  | rule _ command options => (ruleVariables command options).map (1, ·)
  | build e => e.variables.map (1, ·)
  | _ => []

theorem lines_eq (s : Statement) :
    s.lines = s.head ++ s.bindings.flatMap fun v => variableLines v.1 v.2 := by
  cases s with
  | blank | comment | includeFile | subninja | defaults => simp [lines, head, bindings]
  | assign | list | pool => simp [lines, head, bindings]
  | rule | build => simp [lines, head, bindings, List.flatMap_map]

theorem exists_keyword (word : String) {rest : String} (hword : word ∈ keywords)
    {t : Nat × List Char} (h : t ∈ [LogicalLine.statement 0 (word ++ " " ++ rest).toList].filterMap
      LogicalLine.statement?) :
    t.1 = 0 ∧ ∃ word ∈ keywords, ∃ r, t.2 = word.toList ++ ' ' :: r := by
  obtain rfl := List.mem_singleton.1 h
  refine ⟨rfl, word, hword, rest.toList, ?_⟩
  simp only [String.toList_append, List.append_assoc]
  rfl

/-- The first line of a statement that is no assignment starts with a keyword. -/
theorem exists_keyword_of_mem_head {s : Statement} {t : Nat × List Char}
    (h : t ∈ s.head.filterMap LogicalLine.statement?) :
    t.1 = 0 ∧ ∃ word ∈ keywords, ∃ r, t.2 = word.toList ++ ' ' :: r := by
  cases s with
  | blank | comment | assign | list => cases h
  | pool => exact exists_keyword "pool" (by decide) h
  | rule => exact exists_keyword "rule" (by decide) h
  | build e =>
    rw [head, BuildEdge.text, String.append_assoc, String.append_assoc] at h
    exact exists_keyword "build" (by decide) h
  | includeFile => exact exists_keyword "include" (by decide) h
  | subninja => exact exists_keyword "subninja" (by decide) h
  | defaults paths =>
    simp only [head] at h
    split at h
    · cases h
    · exact exists_keyword "default" (by decide) h

/-- Whether the lines of a statement can be read back, those of its variables as such. -/
structure Readable (s : Statement) : Prop where
  sound : ∀ l ∈ s.lines, l.Sound
  assignment : ∀ v ∈ s.bindings, IsAssignment v.2
  level : ∀ v ∈ s.bindings, v.1 = 0 → v.2.1 ∉ keywords

/-- A statement is read alike at all widths exactly when its variables are. -/
theorem forall_isStable_iff {s : Statement} (h : s.Readable) :
    (∀ t ∈ s.lines.filterMap LogicalLine.statement?, IsStable t) ↔
      ∀ v ∈ s.bindings, SingleSpaced (skipSpaces v.2.2.toList) := by
  have hsound := h.sound
  rw [lines_eq, List.forall_mem_append] at hsound
  have hhead : ∀ t ∈ s.head.filterMap LogicalLine.statement?, IsStable t := by
    intro t ht
    obtain ⟨hlevel, word, hword, r, htext⟩ := exists_keyword_of_mem_head ht
    refine isStable_of_not_isAssignment (oddAfter_of_mem_statements hsound.1 t ht) ?_
    rw [hlevel, htext]
    exact not_isAssignment_of_mem_keywords hword r
  have hbinding : ∀ v ∈ s.bindings,
      (∀ t ∈ (variableLines v.1 v.2).filterMap LogicalLine.statement?, IsStable t) ↔
        SingleSpaced (skipSpaces v.2.2.toList) := by
    intro v hv
    unfold variableLines
    split
    next hempty =>
      rw [hempty]
      exact ⟨fun _ => .nil, fun _ => List.forall_mem_nil _⟩
    next =>
      rw [← isStable_assignment_iff (h.assignment v hv) (h.level v hv)]
      exact List.forall_mem_singleton
  rw [lines_eq, List.filterMap_append, List.forall_mem_append]
  constructor
  · rintro ⟨-, hstable⟩ v hv
    refine (hbinding v hv).1 fun t ht => hstable t ?_
    rw [List.filterMap_flatMap]
    exact List.mem_flatMap.2 ⟨v, hv, ht⟩
  · intro hsingle
    refine ⟨hhead, fun t ht => ?_⟩
    rw [List.filterMap_flatMap] at ht
    obtain ⟨v, hv, ht⟩ := List.mem_flatMap.1 ht
    exact (hbinding v hv).2 (hsingle v hv) t ht

/-- **A file is read alike at all widths exactly when no two spaces of a value follow each other**,
those at its start apart. -/
theorem readFile_eq_iff {ss : List Statement} (h : ∀ s ∈ ss, s.Readable) :
    (∀ w₁ w₂, readFile ((ss.flatMap lines).flatMap (·.write w₁)) =
        readFile ((ss.flatMap lines).flatMap (·.write w₂))) ↔
      ∀ v ∈ ss.flatMap bindings, SingleSpaced (skipSpaces v.2.2.toList) := by
  have hsound : ∀ l ∈ ss.flatMap lines, l.Sound := by
    intro l hl
    obtain ⟨s, hs, hl⟩ := List.mem_flatMap.1 hl
    exact (h s hs).sound l hl
  have hstable : (∀ w₁ w₂, readFile ((ss.flatMap lines).flatMap (·.write w₁)) =
      readFile ((ss.flatMap lines).flatMap (·.write w₂))) ↔
        ∀ s ∈ ss, ∀ t ∈ s.lines.filterMap LogicalLine.statement?, IsStable t := by
    simp only [readFile_flatMap_write _ hsound, Option.some.injEq, List.map_inj_left,
      List.filterMap_flatMap, List.mem_flatMap]
    constructor
    · exact fun heq s hs t ht w₁ w₂ => heq w₁ w₂ t ⟨s, hs, ht⟩
    · rintro heq w₁ w₂ t ⟨s, hs, ht⟩
      exact heq s hs t ht w₁ w₂
  rw [hstable]
  constructor
  · intro hs v hv
    obtain ⟨s, hmem, hv⟩ := List.mem_flatMap.1 hv
    exact (forall_isStable_iff (h s hmem)).1 (hs s hmem) v hv
  · intro hv s hs
    exact (forall_isStable_iff (h s hs)).2 fun v hmem => hv v (List.mem_flatMap.2 ⟨s, hs, hmem⟩)

end Statement

end NinjaGen.Ninja
