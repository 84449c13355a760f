import NinjaGen.Proofs.Document.Rules
import NinjaGen.Proofs.Plan.Outputs
import NinjaGen.Proofs.Plan.Parts

/-!
# The lines of a build file

The text of a plan is read back as exactly the statements that the plan calls for, whatever is in
its names, flags and paths and whatever the width of its lines.

* `BuildPlan.lines` are those statements, written down from the plan and the toolchain alone; those
  of the rules are `BuildPlan.ruleLines`.
* `render_eq_ok`: the text of a build file is the text of these lines, and they can be read back
  (`BuildPlan.sound_of_mem_lines`, `BuildPlan.commentsApart_lines`).
* `BuildPlan.decode_render` puts this together.
-/

namespace NinjaGen

open Ninja Text

/-! ## The lines that a plan calls for -/

namespace Ninja

/-- Values as the value of one variable; empty ones are left out. -/
def escapedValues (values : List String) : String :=
  " ".intercalate ((values.filter (· ≠ "")).map escapedText)

end Ninja

namespace Document

/-- The lines of an edge that makes one file. -/
def edgeLines (output rule : String) (inputs implicit : List String)
    (vs : List (String × String)) : List LogicalLine :=
  .statement 0
      ("build " ++ escapedPath output ++ ": " ++
        " ".intercalate (rule :: inputs.map escapedPath ++ markedPaths "|" implicit)).toList ::
    vs.flatMap (variableLines 1)

/-- The lines of a step. -/
def stepLines (t : ToolchainProfile) : Step → List LogicalLine
  | .unity s => edgeLines s.output.text "unity" (s.members.map (·.text)) [] []
  | .compile s =>
    edgeLines s.output.text (Step.compile s).ruleName [s.source.text] []
      [("flags", escapedValues s.flags),
        ("incs", escapedValues (s.includeDirs.map (t.includeFlag ++ ·))),
        ("defines", escapedValues (s.defines.map (t.defineFlag ++ ·)))]
  | .link s =>
    edgeLines s.output.text "link" (s.objects.map (·.text)) (s.implicitInputs.map (·.text))
      [("libs", escapedValues s.libs), ("ldflags", escapedValues s.flags)]
  | .archive s => edgeLines s.output.text "ar" (s.objects.map (·.text)) [] []

/-- The lines of a target: a comment that names it, its steps, and a blank line. -/
def targetLines (t : ToolchainProfile) (p : PlannedTarget) : List LogicalLine :=
  .comment (words (p.kind.word ++ " target: " ++ p.name).toList) ::
    (p.steps.flatMap (stepLines t) ++ [.blank])

end Document

namespace BuildPlan

/-- The words of the first comment. -/
def headWords : List String :=
  ["build.ninja", "generated", "by", "dockyard.", "Edit", "the", "BUILD.toml", "descriptors",
    "instead", "of", "this", "file."]

/-- The lines in front of the rules. -/
def headLines (ctx : BuildContext) : List LogicalLine :=
  .comment (headWords.map String.toList) ::
    (.statement 0 "ninja_required_version = 1.3".toList ::
      variableLines 0 ("builddir", escapedText ctx.buildRoot.text) ++ [.blank])

/-- The lines that make everything the default. -/
def defaultLines (p : BuildPlan) (ctx : BuildContext) : List LogicalLine :=
  if ctx.options.emitDefault ∧ p.targets ≠ [] then
    [.statement 0 ("build all: " ++
        " ".intercalate ("phony" :: p.targets.map fun q => escapedPath q.output.text)).toList,
      .statement 0 "default all".toList]
  else []

/-- **The lines of a build file.** -/
def lines (p : BuildPlan) (ctx : BuildContext) : List LogicalLine :=
  headLines ctx ++ p.ruleLines ctx.profile ++
    p.targets.flatMap (Document.targetLines ctx.profile) ++ p.defaultLines ctx

end BuildPlan

/-! ## Values -/

namespace Document

theorem variableValue_eq_ok_iff {values : List String} {v : String} :
    variableValue values = .ok v ↔
      (∀ s ∈ values, hasLineBreak s = false) ∧ v = escapedValues values := by
  have hempty : hasLineBreak "" = false := by decide
  have hfilter : (∀ s ∈ values.filter (· ≠ ""), hasLineBreak s = false) ↔
      ∀ s ∈ values, hasLineBreak s = false := by
    refine ⟨fun h s hs => ?_, fun h s hs => h s (List.mem_filter.1 hs).1⟩
    by_cases hne : s = ""
    · rw [hne, hempty]
    · exact h s (List.mem_filter.2 ⟨hs, by simpa using hne⟩)
  simp only [variableValue, bind_eq_ok_iff, mapM_eq_ok_iff_map fun _ _ => escape_eq_ok_iff, hfilter,
    pure, Except.pure, Except.ok.injEq]
  constructor
  · rintro ⟨_, ⟨h, rfl⟩, rfl⟩
    exact ⟨h, rfl⟩
  · rintro ⟨h, rfl⟩
    exact ⟨_, ⟨h, rfl⟩, rfl⟩

theorem isValue_escapedValues {values : List String} (h : ∀ s ∈ values, hasLineBreak s = false) :
    IsValue (escapedValues values).toList := by
  rw [escapedValues, String.toList_intercalate]
  exact .joinSpaces (List.forall_mem_map.2 (List.forall_mem_map.2 fun s hs =>
    isValue_escapedText (h s (List.mem_filter.1 hs).1)))

/-! ## Edges -/

theorem lines_build {output rule : String} {inputs implicit : List String}
    {vs : List (String × String)} :
    (Statement.build
        { outputs := [output], rule := rule, inputs := inputs, implicit := implicit,
          assignments := vs }).lines =
      edgeLines output rule inputs implicit vs := by
  simp [Statement.lines, edgeLines, BuildEdge.variables, BuildEdge.text, BuildEdge.outputItems,
    BuildEdge.inputItems, markedPaths]

theorem lines_stepEdge {t : ToolchainProfile} {s : Step} {e : BuildEdge}
    (h : stepEdge t s = .ok e) : (Statement.build e).lines = stepLines t s := by
  cases s with
  | unity s | archive s =>
    cases h
    exact lines_build
  | compile s =>
    simp only [stepEdge, bind_eq_ok_iff, variableValue_eq_ok_iff] at h
    obtain ⟨_, ⟨-, rfl⟩, _, ⟨-, rfl⟩, _, ⟨-, rfl⟩, he⟩ := h
    obtain rfl := Except.ok.inj he
    rw [stepLines, ← Step.name_rule]
    exact lines_build
  | link s =>
    simp only [stepEdge, bind_eq_ok_iff, variableValue_eq_ok_iff] at h
    obtain ⟨_, ⟨-, rfl⟩, _, ⟨-, rfl⟩, he⟩ := h
    obtain rfl := Except.ok.inj he
    exact lines_build

/-- The variables of an edge can be written. -/
theorem isAssignment_of_stepEdge {t : ToolchainProfile} {s : Step} {e : BuildEdge}
    (h : stepEdge t s = .ok e) : Complete e.rule.toList ∧ ∀ v ∈ e.variables, IsAssignment v := by
  cases s with
  | unity s | archive s =>
    cases h
    exact ⟨complete_name _, List.forall_mem_nil _⟩
  | compile s =>
    simp only [stepEdge, bind_eq_ok_iff, variableValue_eq_ok_iff] at h
    obtain ⟨_, ⟨hflags, rfl⟩, _, ⟨hincs, rfl⟩, _, ⟨hdefines, rfl⟩, he⟩ := h
    obtain rfl := Except.ok.inj he
    refine ⟨complete_name _, ?_⟩
    simp only [BuildEdge.variables, Option.toList_none, List.map_nil, List.nil_append,
      List.forall_mem_cons]
    exact ⟨isAssignment (by decide) (isValue_escapedValues hflags),
      isAssignment (by decide) (isValue_escapedValues hincs),
      isAssignment (by decide) (isValue_escapedValues hdefines), List.forall_mem_nil _⟩
  | link s =>
    simp only [stepEdge, bind_eq_ok_iff, variableValue_eq_ok_iff] at h
    obtain ⟨_, ⟨hlibs, rfl⟩, _, ⟨hflags, rfl⟩, he⟩ := h
    obtain rfl := Except.ok.inj he
    refine ⟨complete_name _, ?_⟩
    simp only [BuildEdge.variables, Option.toList_none, List.map_nil, List.nil_append,
      List.forall_mem_cons]
    exact ⟨isAssignment (by decide) (isValue_escapedValues hlibs),
      isAssignment (by decide) (isValue_escapedValues hflags), List.forall_mem_nil _⟩

/-- The lines of an edge without line breaks can be read back. -/
theorem sound_of_mem_lines_build {e : BuildEdge} (hrule : Complete e.rule.toList)
    (hvs : ∀ v ∈ e.variables, IsAssignment v) (hpaths : ∀ p ∈ e.paths, hasLineBreak p = false) :
    ∀ l ∈ (Statement.build e).lines, l.Sound := by
  refine List.forall_mem_cons.2 ⟨⟨e.complete_text hrule hpaths, e.startsStatement_text⟩, ?_⟩
  intro l hl
  obtain ⟨v, hv, hl⟩ := List.mem_flatMap.1 hl
  exact sound_of_mem_variableLines (hvs v hv) hl

/-! ## Targets -/

theorem sound_comment {c : Char} (h : isBlank c = false) (r : List Char) :
    (LogicalLine.comment (words (c :: r))).Sound :=
  ⟨words_ne_nil h r, fun _ => not_isBlank_of_mem_words⟩

theorem sound_targetComment (p : PlannedTarget) :
    (LogicalLine.comment (words (p.kind.word ++ " target: " ++ p.name).toList)).Sound := by
  simp only [String.toList_append, List.append_assoc]
  cases p.kind with
  | exe => exact sound_comment (by decide) _
  | staticLib => exact sound_comment (by decide) _
  | sharedLib => exact sound_comment (by decide) _

theorem edgeGroup_eq_ok_iff {t : ToolchainProfile} {p : PlannedTarget} {g : EdgeGroup} :
    edgeGroup t p = .ok g ↔
      p.steps.map (stepEdge t) = g.edges.map .ok ∧
        g.comment = p.kind.word ++ " target: " ++ p.name := by
  obtain ⟨comment, edges⟩ := g
  rw [← mapM_eq_ok_iff, edgeGroup]
  cases p.steps.mapM (stepEdge t) with
  | error e => simp
  | ok es => simp [eq_comm, and_comm]

theorem lines_groupStatements {t : ToolchainProfile} {p : PlannedTarget} {g : EdgeGroup}
    (h : edgeGroup t p = .ok g) :
    (groupStatements g).flatMap Statement.lines = targetLines t p := by
  obtain ⟨hedges, hcomment⟩ := edgeGroup_eq_ok_iff.1 h
  have hsteps : (g.edges.map Statement.build).flatMap Statement.lines =
      p.steps.flatMap (stepLines t) := by
    rw [List.flatMap_map]
    exact flatMap_eq_of_map_ok hedges fun _ _ => lines_stepEdge
  simp only [groupStatements, List.cons_append, List.flatMap_cons, List.flatMap_append, hsteps,
    Statement.lines, hcomment, List.flatMap_nil, List.append_nil]
  rfl

theorem sound_of_mem_targetLines {t : ToolchainProfile} {p : PlannedTarget} {g : EdgeGroup}
    (h : edgeGroup t p = .ok g)
    (hpaths : ∀ s ∈ groupStatements g, ∀ p ∈ s.paths, hasLineBreak p = false) :
    ∀ l ∈ targetLines t p, l.Sound := by
  obtain ⟨hedges, -⟩ := edgeGroup_eq_ok_iff.1 h
  refine List.forall_mem_cons.2 ⟨sound_targetComment p, List.forall_mem_append.2 ⟨?_, by
    simp [LogicalLine.Sound]⟩⟩
  rw [← flatMap_eq_of_map_ok hedges fun _ _ => lines_stepEdge]
  intro l hl
  obtain ⟨e, he, hl⟩ := List.mem_flatMap.1 hl
  obtain ⟨s, -, hs⟩ := exists_of_mem_of_map_ok hedges he
  obtain ⟨hrule, hvs⟩ := isAssignment_of_stepEdge hs
  refine sound_of_mem_lines_build hrule hvs (hpaths (.build e) ?_) l hl
  simp [groupStatements, he]

end Document

/-! ## Files -/

/-- A document is rendered exactly when neither its build root nor a path in it holds a line break,
and its text is that of its statements. -/
theorem Document.render_eq_ok_iff {d : Document} {text : String} :
    d.render = .ok text ↔
      hasLineBreak d.buildRoot.text = false ∧
        (∀ s ∈ d.statements (escapedText d.buildRoot.text), ∀ p ∈ s.paths,
          hasLineBreak p = false) ∧
        text.toList = ((d.statements (escapedText d.buildRoot.text)).flatMap
          Statement.lines).flatMap (·.write d.lineWidth) := by
  simp only [render, bind_eq_ok_iff, escape_eq_ok_iff, Statement.writeAll_eq_ok_iff, pure,
    Except.pure, Except.ok.injEq]
  constructor
  · rintro ⟨_, ⟨hroot, rfl⟩, _, ⟨hpaths, rfl⟩, rfl⟩
    exact ⟨hroot, hpaths, String.toList_ofList⟩
  · rintro ⟨hroot, hpaths, htext⟩
    exact ⟨_, ⟨hroot, rfl⟩, _, ⟨hpaths, htext⟩, String.ofList_toList⟩

namespace BuildPlan

variable {p : BuildPlan} {ctx : BuildContext} {d : Document}

/-- The document of a plan has the rules that some step uses and the edges of each target. -/
theorem document_eq_ok_iff :
    p.document ctx = .ok d ↔
      d.buildRoot = ctx.buildRoot ∧
        p.usedRules.map (Document.ruleDecl ctx.profile) = d.rules.map .ok ∧
        p.targets.map (Document.edgeGroup ctx.profile) = d.groups.map .ok ∧
        d.defaults = (if ctx.options.emitDefault then p.finalOutputs.map (·.text) else []) ∧
        d.lineWidth = ctx.options.lineWidth := by
  simp only [document, bind_eq_ok_iff, mapM_eq_ok_iff, pure, Except.pure, Except.ok.injEq]
  constructor
  · rintro ⟨rules, hrules, groups, hgroups, rfl⟩
    exact ⟨rfl, hrules, hgroups, rfl, rfl⟩
  · obtain ⟨root, rules, groups, defaults, width⟩ := d
    rintro ⟨rfl, hrules, hgroups, rfl, rfl⟩
    exact ⟨rules, hrules, groups, hgroups, rfl⟩

theorem lines_defaultStatements (h : p.document ctx = .ok d) :
    d.defaultStatements.flatMap Statement.lines = p.defaultLines ctx := by
  obtain ⟨-, -, -, hdefaults, -⟩ := document_eq_ok_iff.1 h
  have hall : escapedPath "all" = "all" := by decide
  rw [Document.defaultStatements, defaultLines, hdefaults]
  by_cases hd : ctx.options.emitDefault = true
  · by_cases ht : p.targets = []
    · simp [hd, ht, finalOutputs]
    · simp [hd, ht, finalOutputs, Statement.lines, BuildEdge.text, BuildEdge.outputItems,
        BuildEdge.inputItems, BuildEdge.variables, markedPaths, Document.allTarget, hall,
        Function.comp_def]
  · simp [hd]

theorem areWords_headWords :
    ∀ w ∈ headWords.map String.toList, w ≠ [] ∧ ∀ c ∈ w, isBlank c = false := by
  have hall : ((headWords.map String.toList).all fun w => !w.isEmpty && !w.any isBlank) = true := by
    decide
  simpa using hall

theorem words_header : words Document.header.toList = headWords.map String.toList := by
  have hheader : Document.header = " ".intercalate headWords := by rfl
  rw [hheader, String.toList_intercalate]
  exact words_joinSpaces areWords_headWords

/-- The statements of a build file say what the plan calls for. -/
theorem lines_statements (h : p.document ctx = .ok d) :
    (d.statements (escapedText ctx.buildRoot.text)).flatMap Statement.lines =
      p.lines ctx := by
  obtain ⟨-, hrules, hgroups, -, -⟩ := document_eq_ok_iff.1 h
  have hrules : (d.rules.flatMap Document.ruleStatements).flatMap Statement.lines =
      p.ruleLines ctx.profile := by
    rw [ruleLines_eq hrules, List.flatMap_assoc]
    rfl
  have htargets : (d.groups.flatMap Document.groupStatements).flatMap Statement.lines =
      p.targets.flatMap (Document.targetLines ctx.profile) := by
    rw [List.flatMap_assoc]
    exact flatMap_eq_of_map_ok hgroups fun _ _ => Document.lines_groupStatements
  simp only [Document.statements, List.flatMap_append, hrules, htargets, lines_defaultStatements h,
    lines, headLines, ← words_header]
  rfl

theorem sound_of_mem_headLines (h : hasLineBreak ctx.buildRoot.text = false) :
    ∀ l ∈ headLines ctx, l.Sound := by
  refine List.forall_mem_cons.2 ⟨⟨nofun, fun w hw => (areWords_headWords w hw).2⟩,
    List.forall_mem_cons.2 ⟨by decide, List.forall_mem_append.2 ⟨fun l => ?_, ?_⟩⟩⟩
  · exact sound_of_mem_variableLines
      (isAssignment (by decide) (isValue_escapedText h))
  · simp [LogicalLine.Sound]

theorem sound_of_mem_defaultLines (h : p.document ctx = .ok d)
    (hpaths : ∀ s ∈ d.defaultStatements, ∀ p ∈ s.paths, hasLineBreak p = false) :
    ∀ l ∈ p.defaultLines ctx, l.Sound := by
  rw [← lines_defaultStatements h]
  unfold Document.defaultStatements at hpaths ⊢
  split at hpaths
  next hd => simp [hd]
  next hd =>
    rw [if_neg hd]
    rw [List.forall_mem_cons] at hpaths
    have hrule : Complete "phony".toList := by decide
    rw [List.flatMap_cons]
    exact List.forall_mem_append.2
      ⟨Document.sound_of_mem_lines_build hrule (List.forall_mem_nil _) hpaths.1, by decide⟩

/-- **What the plan calls for can be read back**, if the file is written. -/
theorem sound_of_mem_lines (h : p.document ctx = .ok d)
    (hroot : hasLineBreak ctx.buildRoot.text = false)
    (hpaths : ∀ s ∈ d.statements (escapedText ctx.buildRoot.text), ∀ p ∈ s.paths,
      hasLineBreak p = false) :
    ∀ l ∈ p.lines ctx, l.Sound := by
  obtain ⟨-, hrules, hgroups, -, -⟩ := document_eq_ok_iff.1 h
  simp only [Document.statements, List.forall_mem_append] at hpaths
  obtain ⟨⟨-, hgroup⟩, hdefault⟩ := hpaths
  refine List.forall_mem_append.2 ⟨List.forall_mem_append.2 ⟨List.forall_mem_append.2
    ⟨sound_of_mem_headLines hroot, sound_of_mem_ruleLines hrules⟩, ?_⟩,
    sound_of_mem_defaultLines h hdefault⟩
  intro l hl
  obtain ⟨t, ht, hl⟩ := List.mem_flatMap.1 hl
  obtain ⟨g, hg, htg⟩ := exists_ok_of_mem_of_map_ok hgroups ht
  refine Document.sound_of_mem_targetLines htg (fun s hs => hgroup s ?_) l hl
  exact List.mem_flatMap.2 ⟨g, hg, hs⟩

/-! ### Comments -/

theorem isComment_of_mem_flatMap_variableLines {level : Nat} {vs : List (String × String)}
    {l : LogicalLine} (h : l ∈ vs.flatMap (variableLines level)) : l.isComment = false := by
  obtain ⟨v, -, hl⟩ := List.mem_flatMap.1 h
  exact isComment_of_mem_variableLines hl

theorem isComment_of_mem_stepLines {t : ToolchainProfile} {s : Step} :
    ∀ l ∈ Document.stepLines t s, l.isComment = false := by
  cases s with
  | unity | compile | link | archive =>
    exact List.forall_mem_cons.2 ⟨rfl, fun _ => isComment_of_mem_flatMap_variableLines⟩

theorem commentsApart_targetLines (t : ToolchainProfile) (q : PlannedTarget) :
    CommentsApart (Document.targetLines t q) := by
  have hplain : ∀ l ∈ q.steps.flatMap (Document.stepLines t) ++ [.blank], l.isComment = false := by
    refine List.forall_mem_append.2 ⟨fun l hl => ?_, by simp [LogicalLine.isComment]⟩
    obtain ⟨s, -, hl⟩ := List.mem_flatMap.1 hl
    exact isComment_of_mem_stepLines l hl
  refine ⟨fun _ => ?_, .of_forall hplain⟩
  cases hl : q.steps.flatMap (Document.stepLines t) with
  | nil => rfl
  | cons l r =>
    rw [hl] at hplain
    rw [List.cons_append, startsPlain, hplain l List.mem_cons_self]
    rfl

/-- No two comments of a build file follow each other. -/
theorem commentsApart_lines (p : BuildPlan) (ctx : BuildContext) :
    CommentsApart (p.lines ctx) := by
  refine .append (.append (.append ⟨fun _ => rfl, .of_forall ?_⟩
    (.flatMap fun r _ => .of_forall ?_))
    (.flatMap fun q _ => commentsApart_targetLines ctx.profile q)) (.of_forall ?_)
  · refine List.forall_mem_cons.2 ⟨rfl, List.forall_mem_append.2
      ⟨fun _ => isComment_of_mem_variableLines, by simp [LogicalLine.isComment]⟩⟩
  · exact List.forall_mem_append.2 ⟨List.forall_mem_cons.2
      ⟨rfl, fun _ => isComment_of_mem_flatMap_variableLines⟩, by simp [LogicalLine.isComment]⟩
  · unfold defaultLines
    split
    · simp [LogicalLine.isComment]
    · exact List.forall_mem_nil _

/-! ### Text -/

/-- **The text of a build file is that of the lines that the plan calls for**, and they can be read
back. -/
theorem render_eq_ok (h : p.document ctx = .ok d) {text : String} (ht : d.render = .ok text) :
    text.toList = (p.lines ctx).flatMap (·.write ctx.options.lineWidth) ∧
      ∀ l ∈ p.lines ctx, l.Sound := by
  obtain ⟨hroot, -, -, -, hwidth⟩ := document_eq_ok_iff.1 h
  obtain ⟨hbreak, hpaths, htext⟩ := Document.render_eq_ok_iff.1 ht
  rw [hroot] at hbreak hpaths htext
  rw [htext, hwidth, lines_statements h]
  exact ⟨rfl, sound_of_mem_lines h hbreak hpaths⟩

/-- The text of a document is read back as the lines of its plan. -/
theorem decode_of_render (h : p.document ctx = .ok d) {text : String} (ht : d.render = .ok text) :
    decode text.toList = some (p.lines ctx) := by
  obtain ⟨htext, hsound⟩ := render_eq_ok h ht
  rw [htext]
  exact decode_flatMap_write ctx.options.lineWidth hsound (commentsApart_lines p ctx)

/-- Targets keep their kinds and names in a plan. -/
theorem map_kind_name {targets : List Target}
    (h : targets.map (expandTarget ctx) = p.targets.map .ok) :
    p.targets.map (fun q => (q.kind, q.name)) = targets.map fun k => (k.kind, k.name) := by
  rw [List.map_eq_flatMap, List.map_eq_flatMap]
  refine flatMap_eq_of_map_ok h fun k q hq => ?_
  obtain ⟨parts, -, rfl⟩ := expandTarget_eq_ok_iff.1 hq
  rfl

/-- **A build file says what its plan calls for.** The plan has the expansions of the targets, in
their order and under their names. At every width, the text of the file is read back as the lines
of the plan: the head, the rules that some step uses, the targets in their order, each with its
steps, and the default. -/
theorem decode_render {targets : List Target} {text : String} (hp : ofTargets ctx targets = .ok p)
    (hd : p.document ctx = .ok d) (ht : d.render = .ok text) :
    targets.map (expandTarget ctx) = p.targets.map .ok ∧
      p.targets.map (fun q => (q.kind, q.name)) = targets.map (fun k => (k.kind, k.name)) ∧
      decode text.toList = some (p.lines ctx) := by
  have hexpand := (ofTargets_eq_ok_iff.1 hp).1
  exact ⟨hexpand, map_kind_name hexpand, decode_of_render hd ht⟩

/-- A plan with awkward texts, whose file is broken at every space that separates items, and what
the file says. -/
theorem decode_render_awkward :
    let ctx : BuildContext := { BuildContext.usual with options := { lineWidth := 0 } }
    let target : Target :=
      .ofSettings "a $\n# b" .exe "bin/a b" ["x.c", "y$:.cpp"]
        { cflags := some ["a  b", "$"], cxxflags := some [" $ "], linkDeps := some ["d: $"] }
    let steps : List Step :=
      [.compile ⟨⟨"x.c"⟩, ⟨"build/x.c.o"⟩, .c, ["-g", "a  b", "$"], ["."], [], "a $\n# b"⟩,
        .compile ⟨⟨"y$:.cpp"⟩, ⟨"build/y$:.cpp.o"⟩, .cxx, ["-g", " $ "], ["."], [], "a $\n# b"⟩,
        .link ⟨[⟨"build/x.c.o"⟩, ⟨"build/y$:.cpp.o"⟩], ⟨"build/bin/a b"⟩, [⟨"d: $"⟩], [], [],
          .executable, "a $\n# b"⟩]
    let p : BuildPlan := ⟨[⟨"a $\n# b", .exe, ⟨"build/bin/a b"⟩, steps⟩]⟩
    let remark (ws : List String) := LogicalLine.comment (ws.map String.toList)
    let line (level : Nat) (text : String) := LogicalLine.statement level text.toList
    let head : List LogicalLine :=
      [remark ["build.ninja", "generated", "by", "dockyard.", "Edit", "the", "BUILD.toml",
          "descriptors", "instead", "of", "this", "file."],
        line 0 "ninja_required_version = 1.3",
        line 0 "builddir = build",
        .blank]
    let rules : List LogicalLine :=
      [line 0 "rule cc",
        line 1 "command = gcc -MMD -MF $out.d $flags $incs $defines -c $in -o $out",
        line 1 "description = CC $out",
        line 1 "depfile = $out.d",
        line 1 "deps = gcc",
        .blank,
        line 0 "rule cxx",
        line 1 "command = g++ -MMD -MF $out.d $flags $incs $defines -c $in -o $out",
        line 1 "description = CXX $out",
        line 1 "depfile = $out.d",
        line 1 "deps = gcc",
        .blank,
        line 0 "rule link",
        line 1 "command = g++ -o $out $in $libs $ldflags",
        line 1 "description = LINK $out",
        .blank]
    let edges : List LogicalLine :=
      [remark ["exe", "target:", "a", "$", "#", "b"],
        line 0 "build build/x.c.o: cc x.c",
        line 1 "flags = -g a  b $$",
        line 1 "incs = -I.",
        line 0 "build build/y$$$:.cpp.o: cxx y$$$:.cpp",
        line 1 "flags = -g  $$ ",
        line 1 "incs = -I.",
        line 0 "build build/bin/a$ b: link build/x.c.o build/y$$$:.cpp.o | d$:$ $$",
        .blank]
    let default : List LogicalLine :=
      [line 0 "build all: phony build/bin/a$ b", line 0 "default all"]
    ∃ d text, ofTargets ctx [target] = .ok p ∧ p.document ctx = .ok d ∧ d.render = .ok text ∧
      decode text.toList = some (head ++ rules ++ edges ++ default) := by
  intro ctx target steps p remark line head rules edges default
  have hplan : ofTargets ctx [target] = .ok p := by decide +kernel
  have hok : (p.document ctx >>= Document.render).isOk = true := by decide +kernel
  -- The parts of the file are compared as closed texts, without their names.
  have hhead : headLines ctx = head := by
    dsimp only [ctx, head, line, remark]
    rfl
  have hrules : p.ruleLines ctx.profile = rules := by
    dsimp only [ctx, p, steps, rules, line]
    rfl
  have hedges : p.targets.flatMap (Document.targetLines ctx.profile) = edges := by
    dsimp only [ctx, p, steps, edges, line, remark]
    rfl
  have hdefault : p.defaultLines ctx = default := by
    dsimp only [ctx, p, steps, default, line]
    rfl
  obtain ⟨text, hrender⟩ := isOk_iff.1 hok
  obtain ⟨d, hd, ht⟩ := bind_eq_ok_iff.1 hrender
  obtain ⟨-, -, hdecode⟩ := decode_render hplan hd ht
  refine ⟨d, text, hplan, hd, ht, ?_⟩
  rw [hdecode, lines, hhead, hrules, hedges, hdefault]

end BuildPlan

end NinjaGen
