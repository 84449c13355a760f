import NinjaGen.Ninja.Writer
import NinjaGen.Proofs.Ninja.Edges
import NinjaGen.Proofs.Ninja.LogicalLines

/-!
# The lines of statements

What a statement says does not depend on the width at which it is written.

* `Statement.lines` are the lines of a statement, and `Statement.paths` the paths in it.
* `Statement.write_eq_ok_iff`: a statement is written exactly when no path holds a line break, and
  its text is that of its lines; `Statement.writeAll_eq_ok_iff` says so of a whole file.
* The lines of variables can be read back if identifiers are assigned values
  (`sound_of_mem_variableLines`), and that of an edge if the name of its rule can end a line
  (`BuildEdge.complete_text`).
-/

namespace NinjaGen.Ninja

open Text (words)

/-! ## Lines -/

/-- A text as the value of a variable holds it. -/
def escapedText (s : String) : String := String.ofList (escapeText s.toList)

/-- The line of a variable; without a value there is none. -/
def variableLines (level : Nat) (v : String × String) : List LogicalLine :=
  if v.2 = "" then [] else [.statement level (v.1 ++ " = " ++ v.2).toList]

/-- The variables of an edge, the pool of its command among them. -/
def BuildEdge.variables (e : BuildEdge) : List (String × String) :=
  e.pool.toList.map (fun p => ("pool", p)) ++ e.assignments

/-- The variables of a rule. -/
def ruleVariables (command : String) (options : RuleOptions) : List (String × String) :=
  ("command", command) :: options.assignments

namespace Statement

/-- The lines of a statement. -/
def lines : Statement → List LogicalLine
  | blank => [.blank]
  | comment text => [.comment (words text.toList)]
  | assign key value level => variableLines level (key, value)
  | list key values level => variableLines level (key, joinValues values)
  | pool name depth =>
    .statement 0 ("pool " ++ name).toList :: variableLines 1 ("depth", toString depth)
  | rule name command options =>
    .statement 0 ("rule " ++ name).toList ::
      (ruleVariables command options).flatMap (variableLines 1)
  | build e => .statement 0 e.text.toList :: e.variables.flatMap (variableLines 1)
  | includeFile path => [.statement 0 ("include " ++ escapedPath path).toList]
  | subninja path => [.statement 0 ("subninja " ++ escapedPath path).toList]
  | defaults paths =>
    if paths = [] then []
    else [.statement 0 ("default " ++ " ".intercalate (paths.map escapedPath)).toList]

/-- The paths in a statement. -/
def paths : Statement → List String
  | build e => e.paths
  | includeFile path | subninja path => [path]
  | defaults paths => paths
  | _ => []

/-! ## Text -/

theorem flatMap_write_variableLines (lineWidth level : Nat) (v : String × String) :
    (variableLines level v).flatMap (·.write lineWidth) =
      variableText lineWidth level v.1 v.2 := by
  unfold variableLines variableText
  split
  · rfl
  · rw [List.flatMap_singleton]
    rfl

theorem flatMap_write_assignments (lineWidth : Nat) (vs : List (String × String)) :
    (vs.flatMap (variableLines 1)).flatMap (·.write lineWidth) = assignmentsText lineWidth vs := by
  rw [List.flatMap_assoc]
  exact congrArg vs.flatMap (funext (flatMap_write_variableLines lineWidth 1))

theorem flatMap_write_statement (lineWidth : Nat) (s : String) :
    [LogicalLine.statement 0 s.toList].flatMap (·.write lineWidth) = lineText lineWidth 0 s :=
  List.flatMap_singleton _ _

theorem ok_eq_ok_iff_of_eq {a b t : List Char} (h : b = a) :
    (.ok a : Except GenerationError (List Char)) = .ok t ↔
      (∀ p ∈ ([] : List String), hasLineBreak p = false) ∧ t = b := by
  subst h
  simp only [Except.ok.injEq, List.not_mem_nil, false_implies, implies_true, true_and]
  exact eq_comm

theorem write_path_eq_ok_iff {lineWidth : Nat} {keyword path : String} {t : List Char} :
    (escapePath path >>= fun es => pure (lineText lineWidth 0 (keyword ++ es))) = .ok t ↔
      (∀ p ∈ [path], hasLineBreak p = false) ∧
        t = [LogicalLine.statement 0 (keyword ++ escapedPath path).toList].flatMap
          (·.write lineWidth) := by
  rw [flatMap_write_statement, List.forall_mem_singleton]
  simp only [bind_eq_ok_iff, escapePath_eq_ok_iff, pure, Except.pure, Except.ok.injEq]
  constructor
  · rintro ⟨_, ⟨hp, rfl⟩, rfl⟩
    exact ⟨hp, rfl⟩
  · rintro ⟨hp, rfl⟩
    exact ⟨_, ⟨hp, rfl⟩, rfl⟩

/-- **A statement is written exactly when no path of it holds a line break**, and its text is that
of its lines. -/
theorem write_eq_ok_iff {lineWidth : Nat} {s : Statement} {t : List Char} :
    s.write lineWidth = .ok t ↔
      (∀ p ∈ s.paths, hasLineBreak p = false) ∧ t = s.lines.flatMap (·.write lineWidth) := by
  cases s with
  | blank => exact ok_eq_ok_iff_of_eq rfl
  | comment text => exact ok_eq_ok_iff_of_eq (List.flatMap_singleton _ _)
  | assign key value level =>
    exact ok_eq_ok_iff_of_eq (flatMap_write_variableLines lineWidth level (key, value))
  | list key values level =>
    exact ok_eq_ok_iff_of_eq (flatMap_write_variableLines lineWidth level (key, joinValues values))
  | pool name depth =>
    refine ok_eq_ok_iff_of_eq ?_
    rw [lines, List.flatMap_cons, flatMap_write_variableLines]
    rfl
  | rule name command options =>
    refine ok_eq_ok_iff_of_eq ?_
    rw [lines, List.flatMap_cons, flatMap_write_assignments]
    rfl
  | build e =>
    simp only [write, lines, paths, bind_eq_ok_iff, BuildEdge.line_eq_ok_iff, List.flatMap_cons,
      flatMap_write_assignments, pure, Except.pure, Except.ok.injEq]
    constructor
    · rintro ⟨_, ⟨hp, rfl⟩, rfl⟩
      exact ⟨hp, rfl⟩
    · rintro ⟨hp, rfl⟩
      exact ⟨_, ⟨hp, rfl⟩, rfl⟩
  | includeFile path => exact write_path_eq_ok_iff
  | subninja path => exact write_path_eq_ok_iff
  | defaults ps =>
    simp only [write, lines, paths, bind_eq_ok_iff, escapePaths_eq_ok_iff, pure, Except.pure,
      Except.ok.injEq]
    constructor
    · rintro ⟨_, ⟨hp, rfl⟩, rfl⟩
      refine ⟨hp, ?_⟩
      split
      · rfl
      · exact (flatMap_write_statement lineWidth _).symm
    · rintro ⟨hp, rfl⟩
      refine ⟨_, ⟨hp, rfl⟩, ?_⟩
      split
      · rfl
      · exact (flatMap_write_statement lineWidth _).symm

/-- A file is written exactly when no path in it holds a line break. -/
theorem writeAll_eq_ok_iff {lineWidth : Nat} {ss : List Statement} {t : List Char} :
    writeAll lineWidth ss = .ok t ↔
      (∀ s ∈ ss, ∀ p ∈ s.paths, hasLineBreak p = false) ∧
        t = (ss.flatMap lines).flatMap (·.write lineWidth) := by
  rw [writeAll, map_eq_ok_iff]
  simp only [mapM_eq_ok_iff_map fun _ _ => write_eq_ok_iff]
  constructor
  · rintro ⟨_, ⟨hp, rfl⟩, rfl⟩
    exact ⟨hp, by rw [List.flatMap_assoc, List.flatMap_def]⟩
  · rintro ⟨hp, rfl⟩
    exact ⟨_, ⟨hp, rfl⟩, by rw [List.flatMap_assoc, List.flatMap_def]⟩

end Statement

/-! ## Lines that can be read back -/

theorem isComment_of_mem_variableLines {level : Nat} {v : String × String} {l : LogicalLine}
    (h : l ∈ variableLines level v) : l.isComment = false := by
  unfold variableLines at h
  split at h
  · cases h
  · cases List.mem_singleton.1 h
    rfl

/-- A character of an identifier. -/
def isIdentifierChar (c : Char) : Bool := c.isAlphanum || c = '_' || c = '-' || c = '.'

/-- Whether a text is an identifier. -/
def IsIdentifier (s : String) : Prop := s ≠ "" ∧ ∀ c ∈ s.toList, isIdentifierChar c = true

instance (s : String) : Decidable (IsIdentifier s) :=
  have := List.decidableBAll (isIdentifierChar · = true) s.toList
  inferInstanceAs (Decidable (_ ∧ _))

theorem IsIdentifier.not_mem {s : String} (h : IsIdentifier s) {c : Char}
    (hc : isIdentifierChar c = false) : c ∉ s.toList := by
  intro hm
  rw [h.2 c hm] at hc
  cases hc

theorem IsIdentifier.isValue {s : String} (h : IsIdentifier s) : IsValue s.toList :=
  ⟨⟨h.not_mem (by decide), oddAfter_of_not_mem (h.not_mem (by decide))⟩,
    spacesAre_of_not_mem (h.not_mem (by decide)) false⟩

theorem IsIdentifier.startsStatement {s : String} (h : IsIdentifier s) :
    startsStatement s.toList = true := by
  have hspace := h.not_mem (c := ' ') (by decide)
  have hmark := h.not_mem (c := '#') (by decide)
  obtain ⟨c, r, hcr⟩ := List.exists_cons_of_ne_nil (l := s.toList) (by simpa using h.1)
  rw [hcr] at hspace hmark ⊢
  simp only [List.mem_cons, not_or] at hspace hmark
  simp [Ninja.startsStatement, Ne.symm hspace.1, Ne.symm hmark.1]

theorem isValue_escapedText {s : String} (h : hasLineBreak s = false) :
    IsValue (escapedText s).toList := by
  rw [escapedText, String.toList_ofList]
  exact .escapeText (newline_not_mem_of_hasLineBreak h)

/-- Whether an identifier is assigned what can be a value. -/
def IsAssignment (v : String × String) : Prop := IsIdentifier v.1 ∧ IsValue v.2.toList

instance (v : String × String) : Decidable (IsAssignment v) := inferInstanceAs (Decidable (_ ∧ _))

theorem isAssignment {key value : String} (hkey : IsIdentifier key)
    (hvalue : IsValue value.toList) : IsAssignment (key, value) :=
  ⟨hkey, hvalue⟩

theorem IsAssignment.isValue_text {v : String × String} (h : IsAssignment v) :
    IsValue (v.1 ++ " = " ++ v.2).toList := by
  simp only [String.toList_append]
  exact (h.1.isValue.append (by decide)).append h.2

theorem sound_of_mem_variableLines {level : Nat} {v : String × String} (hv : IsAssignment v)
    {l : LogicalLine} (h : l ∈ variableLines level v) : l.Sound := by
  unfold variableLines at h
  split at h
  · cases h
  · cases List.mem_singleton.1 h
    refine ⟨hv.isValue_text.1, ?_⟩
    simp only [String.toList_append, List.append_assoc]
    exact startsStatement_append hv.1.startsStatement _

theorem complete_escapedPath {p : String} (h : hasLineBreak p = false) :
    Complete (escapedPath p).toList := by
  rw [escapedPath, String.toList_ofList]
  exact .escapePathText (newline_not_mem_of_hasLineBreak h)

theorem complete_intercalate {ss : List String} (h : ∀ s ∈ ss, Complete s.toList) :
    Complete (" ".intercalate ss).toList := by
  rw [String.toList_intercalate]
  exact .joinSpaces (List.forall_mem_map.2 h)

theorem complete_of_mem_markedPaths {mark : String} (hmark : Complete mark.toList)
    {paths : List String} (hpaths : ∀ p ∈ paths, hasLineBreak p = false) :
    ∀ s ∈ markedPaths mark paths, Complete s.toList := by
  unfold markedPaths
  split
  · exact List.forall_mem_nil _
  · exact List.forall_mem_cons.2
      ⟨hmark, List.forall_mem_map.2 fun p hp => complete_escapedPath (hpaths p hp)⟩

/-- The line of an edge can be written when no path holds a line break and the name of the rule can
end a line. -/
theorem BuildEdge.complete_text {e : BuildEdge} (hrule : Complete e.rule.toList)
    (hpaths : ∀ p ∈ e.paths, hasLineBreak p = false) : Complete e.text.toList := by
  simp only [paths, List.forall_mem_append] at hpaths
  obtain ⟨⟨⟨⟨ho, hio⟩, hi⟩, him⟩, hoo⟩ := hpaths
  have hescaped : ∀ ps : List String, (∀ p ∈ ps, hasLineBreak p = false) →
      ∀ s ∈ ps.map escapedPath, Complete s.toList := fun ps hps =>
    List.forall_mem_map.2 fun p hp => complete_escapedPath (hps p hp)
  have houtputs : ∀ s ∈ e.outputItems, Complete s.toList :=
    List.forall_mem_append.2 ⟨hescaped _ ho, complete_of_mem_markedPaths (by decide) hio⟩
  have hinputs : ∀ s ∈ e.inputItems, Complete s.toList :=
    List.forall_mem_append.2 ⟨List.forall_mem_append.2
      ⟨hescaped _ hi, complete_of_mem_markedPaths (by decide) him⟩,
      complete_of_mem_markedPaths (by decide) hoo⟩
  simp only [text, String.toList_append]
  exact .append (.append (.append (by decide) (complete_intercalate houtputs)) (by decide))
    (complete_intercalate (List.forall_mem_cons.2 ⟨hrule, hinputs⟩))

theorem BuildEdge.startsStatement_text (e : BuildEdge) : startsStatement e.text.toList = true := by
  simp only [text, String.toList_append, List.append_assoc]
  exact startsStatement_append (by decide) _

end NinjaGen.Ninja
