import Mathlib.Algebra.Order.BigOperators.Group.List
import Mathlib.Algebra.Order.Group.Nat
import NinjaGen.Proofs.Document.Generating
import NinjaGen.Proofs.Ninja.PathGrammar
import NinjaGen.Proofs.Plan.EmptyEntries

/-!
# Empty entries in a build file

Empty values are left out where the values of a list are joined. Flags and libraries are such
values, so that entries of theirs that expand to nothing never show. Directories of headers and
definitions get a prefix first: an empty one becomes the bare prefix, which is a value like any
other and stays.

* `BuildPlan.targetDocument_withoutEmptyFlags`: entries of the one kind do not show.
* `Step.length_content_withoutEmptyArgs`: every entry of the other kind makes the lines of a
  compilation longer.
* `withoutEmpty_spec` says what follows for the edges and the text of a build file: both stay the
  same exactly when no directory of headers and no definition expands to nothing.
-/

namespace NinjaGen

open Ninja Text

/-! ## Documents -/

/-- The document of the build file for targets. -/
def targetDocument (ctx : BuildContext) (targets : List Target) :
    Except GenerationError Document := do
  let plan ← BuildPlan.ofTargets ctx targets
  plan.document ctx

theorem renderTargets_eq_bind (ctx : BuildContext) (targets : List Target) :
    renderTargets ctx targets = targetDocument ctx targets >>= Document.render := by
  unfold renderTargets targetDocument
  cases BuildPlan.ofTargets ctx targets <;> rfl

namespace Document

theorem variableValue_nonempty (vs : List String) :
    variableValue (nonempty vs) = variableValue vs := by
  have h : (nonempty vs).filter (· ≠ "") = vs.filter (· ≠ "") := nonempty_nonempty vs
  rw [variableValue, h, variableValue]

theorem stepEdge_withoutEmptyFlags (t : ToolchainProfile) (s : Step) :
    stepEdge t s.withoutEmptyFlags = stepEdge t s := by
  cases s with
  | unity | archive => rfl
  | compile | link =>
    simp only [Step.withoutEmptyFlags, stepEdge, variableValue_nonempty]
    rfl

/-- The edges of a target whose values can be written. -/
def group (t : ToolchainProfile) (p : PlannedTarget) : EdgeGroup :=
  ⟨p.kind.word ++ " target: " ++ p.name, p.steps.map (·.edge t)⟩

theorem edgeGroup_eq_ok_iff_group {t : ToolchainProfile} {p : PlannedTarget} {g : EdgeGroup} :
    edgeGroup t p = .ok g ↔
      (∀ s ∈ p.steps, ∀ v ∈ s.values t, hasLineBreak v = false) ∧ g = group t p := by
  rw [edgeGroup_eq_ok_iff, ← mapM_eq_ok_iff, mapM_eq_ok_iff_map fun _ _ => stepEdge_eq_ok_iff]
  obtain ⟨comment, edges⟩ := g
  rw [group, EdgeGroup.mk.injEq]
  tauto

end Document

namespace BuildPlan

variable {p : BuildPlan} {ctx : BuildContext} {d : Document}

theorem document_eq_ok_iff_group :
    p.document ctx = .ok d ↔
      d.buildRoot = ctx.buildRoot ∧
        p.usedRules.map (Document.ruleDecl ctx.profile) = d.rules.map .ok ∧
        ((∀ s ∈ p.steps, ∀ v ∈ s.values ctx.profile, hasLineBreak v = false) ∧
          d.groups = p.targets.map (Document.group ctx.profile)) ∧
        d.defaults = (if ctx.options.emitDefault then p.finalOutputs.map (·.text) else []) ∧
        d.lineWidth = ctx.options.lineWidth := by
  have hgroups : p.targets.map (Document.edgeGroup ctx.profile) = d.groups.map .ok ↔
      (∀ s ∈ p.steps, ∀ v ∈ s.values ctx.profile, hasLineBreak v = false) ∧
        d.groups = p.targets.map (Document.group ctx.profile) := by
    rw [← mapM_eq_ok_iff, mapM_eq_ok_iff_map fun _ _ => Document.edgeGroup_eq_ok_iff_group, steps,
      List.forall_mem_flatMap]
  rw [document_eq_ok_iff, hgroups]

/-- The edges of a document are those of the steps, in their order. -/
theorem edges_of_document (h : p.document ctx = .ok d) :
    d.groups.flatMap (·.edges) = p.steps.map (·.edge ctx.profile) := by
  obtain ⟨-, -, ⟨-, hgroups⟩, -⟩ := document_eq_ok_iff_group.1 h
  rw [hgroups, List.flatMap_map, steps, List.map_flatMap]
  rfl

/-- A change that shows in no edge shows nowhere in the document. -/
theorem document_mapSteps {f : Step → Step} (hf : Step.Keeps f)
    (hedge : ∀ s, Document.stepEdge ctx.profile (f s) = Document.stepEdge ctx.profile s)
    (p : BuildPlan) : (p.mapSteps f).document ctx = p.document ctx := by
  have hgroup : ∀ q : PlannedTarget, Document.edgeGroup ctx.profile (q.mapSteps f) =
      Document.edgeGroup ctx.profile q := by
    intro q
    have hsteps : (q.mapSteps f).steps.mapM (Document.stepEdge ctx.profile) =
        q.steps.mapM (Document.stepEdge ctx.profile) := by
      rw [PlannedTarget.mapSteps, List.mapM_map]
      exact congrArg (List.mapM · q.steps) (funext hedge)
    rw [Document.edgeGroup, hsteps]
    rfl
  have hgroups : (p.mapSteps f).targets.mapM (Document.edgeGroup ctx.profile) =
      p.targets.mapM (Document.edgeGroup ctx.profile) := by
    rw [mapSteps, List.mapM_map]
    exact congrArg (List.mapM · p.targets) (funext hgroup)
  rw [document, document, hgroups, usedRules_mapSteps hf, finalOutputs_mapSteps]

/-- **Flags and libraries that expand to nothing do not show in a build file.** -/
theorem targetDocument_withoutEmptyFlags (ctx : BuildContext) (targets : List Target) :
    targetDocument ctx (targets.map (·.withoutEmptyFlags ctx.bindings)) =
      targetDocument ctx targets := by
  have hkeep : ∀ x : Except GenerationError BuildPlan, (x >>= fun p => p.document ctx) =
      x.map (mapSteps Step.withoutEmptyFlags) >>= fun p => p.document ctx := by
    intro x
    cases x with
    | error => rfl
    | ok p => exact (document_mapSteps Step.keeps_withoutEmptyFlags
        (Document.stepEdge_withoutEmptyFlags ctx.profile) p).symm
  have hplan := ofTargets_map (g := (·.withoutEmptyFlags ctx.bindings)) (fun _ => rfl)
    Step.keeps_withoutEmptyFlags Step.keeps_withoutEmptyFlags (expandTarget_withoutEmptyFlags ctx)
    targets
  rw [targetDocument, targetDocument, hkeep, hplan, ← hkeep]

end BuildPlan

/-! ## The length of values -/

namespace Ninja

/-- Joining saves the space in front of the first text. -/
theorem length_joinSpaces (ws : List (List Char)) :
    (joinSpaces ws).length = (spaced ws).length - 1 := by
  cases ws with
  | nil => rfl
  | cons w r => rw [← cons_joinSpaces, List.length_cons, Nat.add_sub_cancel]

/-- The text of a line of a statement. -/
def LogicalLine.content : LogicalLine → List Char
  | statement _ text => text
  | blank | comment _ => []

/-- A longer value makes a longer line, by as much at least. -/
theorem length_content_variableLines {level n : Nat} {key value value' : String}
    (h : value'.toList.length + n ≤ value.toList.length) :
    ((variableLines level (key, value')).flatMap LogicalLine.content).length + n ≤
      ((variableLines level (key, value)).flatMap LogicalLine.content).length := by
  have hlength : ∀ value : String,
      ((variableLines level (key, value)).flatMap LogicalLine.content).length =
        if value.toList.length = 0 then 0 else key.toList.length + 3 + value.toList.length := by
    intro value
    by_cases h : value = ""
    · simp [variableLines, h]
    · have hpos : ¬ value.toList.length = 0 := by simpa using h
      have hsign : " = ".toList.length = 3 := rfl
      rw [if_neg hpos, variableLines, if_neg h]
      simp only [List.flatMap_singleton, LogicalLine.content, String.toList_append,
        List.length_append, hsign]
  rw [hlength, hlength]
  split <;> split <;> omega

/-- Where the arguments of entries are not empty, not even those of empty ones, an empty entry makes
a value longer. -/
theorem length_escapedValues_nonempty {arg : String → String} (harg : ∀ e, arg e ≠ "")
    (es : List String) :
    (escapedValues ((nonempty es).map arg)).toList.length + (if "" ∈ es then 1 else 0) ≤
      (escapedValues (es.map arg)).toList.length := by
  let word (e : String) : List Char := escapeText (arg e).toList
  have hword : ∀ e, 0 < (word e).length := by
    intro e
    have hne : (arg e).toList ≠ [] := by simpa using harg e
    obtain ⟨c, r, hcr⟩ := List.exists_cons_of_ne_nil hne
    have hform : word e = (if c = '$' then ['$', '$'] else [c]) ++ escapeText r := by
      simp only [word, hcr]
      rfl
    have hpos : 0 < (if c = '$' then ['$', '$'] else [c]).length := by split <;> simp
    rw [hform, List.length_append]
    omega
  have hvalue : ∀ es : List String, (escapedValues (es.map arg)).toList.length =
      (spaced (es.map word)).length - 1 := by
    intro es
    have hkept : (es.map arg).filter (· ≠ "") = es.map arg :=
      List.filter_eq_self.2 (List.forall_mem_map.2 fun e _ => by simpa using harg e)
    have htexts : ((es.map arg).map escapedText).map String.toList = es.map word := by
      simp [escapedText, word, Function.comp_def]
    rw [escapedValues, hkept, String.toList_intercalate, htexts]
    exact length_joinSpaces _
  have hspaced : (spaced ((nonempty es).map word)).length + 2 * (if "" ∈ es then 1 else 0) ≤
      (spaced (es.map word)).length := by
    induction es with
    | nil => simp [nonempty]
    | cons e r ih =>
      have he := hword e
      by_cases hempty : e = ""
      · have hdrop : nonempty (e :: r) = nonempty r := by simp [nonempty, hempty]
        rw [hdrop, if_pos (by simp [hempty]), List.map_cons, spaced_cons, List.length_cons,
          List.length_append]
        split at ih <;> omega
      · have hkeep : nonempty (e :: r) = e :: nonempty r := by simp [nonempty, hempty]
        have hmem : "" ∈ e :: r ↔ "" ∈ r := by simp [Ne.symm hempty]
        simp only [hkeep, hmem, List.map_cons, spaced_cons, List.length_cons, List.length_append]
        omega
  rw [hvalue, hvalue]
  by_cases hmem : "" ∈ es
  · rw [if_pos hmem] at hspaced ⊢
    omega
  · rw [if_neg hmem] at hspaced ⊢
    omega

end Ninja

/-! ## The lines of a compilation -/

namespace Step

variable {t : ToolchainProfile}

theorem values_withoutEmptyArgs (s : Step) :
    ∀ v ∈ s.withoutEmptyArgs.values t, v ∈ s.values t := by
  cases s with
  | unity | link | archive => exact fun _ h => h
  | compile s =>
    have hsub : ∀ (f : String → String) (es : List String),
        ∀ v ∈ (nonempty es).map f, v ∈ es.map f :=
      fun f es v hv => List.map_subset f (List.filter_subset_self es) hv
    simp only [withoutEmptyArgs, values, List.mem_append]
    exact fun v hv => hv.imp (.imp_right (hsub _ _ v)) (hsub _ _ v)

theorem pathTexts_withoutEmptyArgs (s : Step) : s.withoutEmptyArgs.pathTexts = s.pathTexts := by
  cases s <;> rfl

/-- What the lines of a step say. -/
def content (t : ToolchainProfile) (s : Step) : List Char :=
  (Document.stepLines t s).flatMap LogicalLine.content

/-- **Behind prefixes, every empty entry makes the lines of a compilation longer.** -/
theorem length_content_withoutEmptyArgs (hinclude : t.includeFlag ≠ "")
    (hdefine : t.defineFlag ≠ "") (s : Step) :
    (s.withoutEmptyArgs.content t).length ≤ (s.content t).length ∧
      (s.HasEmptyArg → (s.withoutEmptyArgs.content t).length < (s.content t).length) := by
  cases s with
  | unity | link | archive => exact ⟨le_rfl, nofun⟩
  | compile s =>
    have hinclude : ∀ e, t.includeFlag ++ e ≠ "" := by simp [hinclude]
    have hdefine : ∀ e, t.defineFlag ++ e ≠ "" := by simp [hdefine]
    have hincs := @length_content_variableLines 1 _ "incs" _ _
      (@length_escapedValues_nonempty (fun e => t.includeFlag ++ e) hinclude s.includeDirs)
    have hdefines := @length_content_variableLines 1 _ "defines" _ _
      (@length_escapedValues_nonempty (fun e => t.defineFlag ++ e) hdefine s.defines)
    have hmore : ((withoutEmptyArgs (.compile s)).content t).length +
        ((if "" ∈ s.includeDirs then 1 else 0) + if "" ∈ s.defines then 1 else 0) ≤
          ((compile s).content t).length := by
      simp only [content, withoutEmptyArgs, Document.stepLines, ruleName, Document.edgeLines,
        List.flatMap_cons, List.flatMap_nil, List.append_nil, List.flatMap_append,
        List.length_append]
      omega
    refine ⟨by omega, fun hempty => ?_⟩
    rcases List.mem_append.1 hempty with h | h
    · rw [if_pos h] at hmore
      omega
    · rw [if_pos h] at hmore
      omega

end Step

namespace Document

/-- The lines of a step are those of its edge. -/
theorem lines_edge (t : ToolchainProfile) (s : Step) :
    (Statement.build (s.edge t)).lines = stepLines t s := by
  cases s with
  | compile s =>
    rw [stepLines, ← Step.name_rule]
    exact lines_build
  | unity | link | archive => exact lines_build

/-- The statements of groups of edges name the paths of the edges. -/
theorem forall_paths_groupStatements_iff {groups : List EdgeGroup} {P : String → Prop} :
    (∀ s ∈ groups.flatMap groupStatements, ∀ q ∈ s.paths, P q) ↔
      ∀ e ∈ groups.flatMap (·.edges), ∀ q ∈ e.paths, P q := by
  simp only [List.forall_mem_flatMap, groupStatements, List.cons_append, List.forall_mem_cons,
    List.forall_mem_append, List.forall_mem_map, Statement.paths, List.not_mem_nil, false_imp_iff,
    implies_true, true_and, and_true]

end Document

/-! ## Build files without the entries -/

namespace BuildPlan

variable {p : BuildPlan} {ctx : BuildContext} {d d' : Document}

/-- A plan that has a document has one without empty directories of headers and definitions. -/
theorem exists_document_withoutEmptyArgs (h : p.document ctx = .ok d) :
    ∃ d', (p.mapSteps Step.withoutEmptyArgs).document ctx = .ok d' ∧ d'.buildRoot = d.buildRoot ∧
      d'.rules = d.rules ∧ d'.defaults = d.defaults ∧ d'.lineWidth = d.lineWidth := by
  obtain ⟨hroot, hrules, ⟨hvalues, -⟩, hdefaults, hwidth⟩ := document_eq_ok_iff_group.1 h
  refine ⟨{ d with
    groups := (p.mapSteps Step.withoutEmptyArgs).targets.map (Document.group ctx.profile) },
    document_eq_ok_iff_group.2 ⟨hroot, ?_, ⟨?_, rfl⟩, ?_, hwidth⟩, rfl, rfl, rfl, rfl⟩
  · rw [usedRules_mapSteps Step.keeps_withoutEmptyArgs]
    exact hrules
  · rw [steps_mapSteps]
    refine List.forall_mem_map.2 fun s hs v hv => ?_
    exact hvalues s hs v (s.values_withoutEmptyArgs v hv)
  · rw [finalOutputs_mapSteps]
    exact hdefaults

/-- Whether a document has a text does not depend on empty directories of headers and
definitions. -/
theorem exists_render_withoutEmptyArgs (h : p.document ctx = .ok d)
    (h' : (p.mapSteps Step.withoutEmptyArgs).document ctx = .ok d')
    (hroot : d'.buildRoot = d.buildRoot) (hrules : d'.rules = d.rules)
    (hdefaults : d'.defaults = d.defaults) {text : String} (ht : d.render = .ok text) :
    ∃ text', d'.render = .ok text' := by
  obtain ⟨hbreak, hpaths, -⟩ := Document.render_eq_ok_iff.1 ht
  refine ⟨String.ofList _, Document.render_eq_ok_iff.2 ⟨hroot ▸ hbreak, ?_, String.toList_ofList⟩⟩
  have hdefault : d'.defaultStatements = d.defaultStatements := by
    rw [Document.defaultStatements, Document.defaultStatements, hdefaults]
  rw [hroot]
  simp only [Document.statements, hrules, hdefault, List.forall_mem_append,
    Document.forall_paths_groupStatements_iff, edges_of_document h, edges_of_document h',
    steps_mapSteps, List.forall_mem_map, paths_edge, Step.pathTexts_withoutEmptyArgs] at hpaths ⊢
  exact hpaths

/-- The lines of the targets of a plan say what those of its steps do. -/
theorem content_targetLines (t : ToolchainProfile) (p : BuildPlan) :
    (p.targets.flatMap (Document.targetLines t)).flatMap LogicalLine.content =
      p.steps.flatMap (Step.content t) := by
  have htarget : ∀ q : PlannedTarget, (Document.targetLines t q).flatMap LogicalLine.content =
      q.steps.flatMap (Step.content t) := by
    intro q
    simp only [Document.targetLines, List.flatMap_cons, List.flatMap_append, List.flatMap_nil,
      LogicalLine.content, List.nil_append, List.append_nil, List.flatMap_assoc]
    rfl
  rw [List.flatMap_assoc, funext htarget, ← List.flatMap_assoc, ← steps]

/-- The lines of a build file change when an empty directory of headers or definition is
dropped. -/
theorem not_hasEmptyArg_of_lines_eq (hinclude : ctx.profile.includeFlag ≠ "")
    (hdefine : ctx.profile.defineFlag ≠ "")
    (h : (p.mapSteps Step.withoutEmptyArgs).lines ctx = p.lines ctx) :
    ∀ s ∈ p.steps, ¬ s.HasEmptyArg := by
  intro s hs hempty
  have hdefault : (p.mapSteps Step.withoutEmptyArgs).defaultLines ctx = p.defaultLines ctx := by
    have hnone : (p.mapSteps Step.withoutEmptyArgs).targets ≠ [] ↔ p.targets ≠ [] := by
      simp [mapSteps]
    have houtputs : ((p.mapSteps Step.withoutEmptyArgs).targets.map fun q =>
        escapedPath q.output.text) = p.targets.map fun q => escapedPath q.output.text := by
      rw [mapSteps, List.map_map]
      rfl
    simp only [defaultLines, houtputs, hnone]
  have hrules : (p.mapSteps Step.withoutEmptyArgs).ruleLines ctx.profile =
      p.ruleLines ctx.profile := by
    rw [ruleLines_eq_flatMap, ruleLines_eq_flatMap, usedRules_mapSteps Step.keeps_withoutEmptyArgs]
  rw [lines, lines, hrules, hdefault] at h
  have htargets := List.append_cancel_left (List.append_cancel_right h)
  have hcontent := congrArg (·.flatMap LogicalLine.content) htargets
  simp only [content_targetLines, steps_mapSteps, List.flatMap_map] at hcontent
  have hstep := Step.length_content_withoutEmptyArgs hinclude hdefine
  have hless : (p.steps.flatMap fun s => s.withoutEmptyArgs.content ctx.profile).length <
      (p.steps.flatMap (Step.content ctx.profile)).length := by
    rw [List.length_flatMap, List.length_flatMap]
    exact List.sum_lt_sum _ _ (fun s _ => (hstep s).1) ⟨s, hs, (hstep s).2 hempty⟩
  rw [hcontent] at hless
  exact Nat.lt_irrefl _ hless

/-- So do its edges. -/
theorem not_hasEmptyArg_of_edges_eq {t : ToolchainProfile} (hinclude : t.includeFlag ≠ "")
    (hdefine : t.defineFlag ≠ "")
    (h : (p.steps.map fun s => s.withoutEmptyArgs.edge t) = p.steps.map (·.edge t)) :
    ∀ s ∈ p.steps, ¬ s.HasEmptyArg := by
  intro s hs hempty
  have hedge : s.withoutEmptyArgs.edge t = s.edge t := List.map_inj_left.1 h s hs
  have hlines : Document.stepLines t s.withoutEmptyArgs = Document.stepLines t s := by
    rw [← Document.lines_edge, ← Document.lines_edge, hedge]
  have hless := (Step.length_content_withoutEmptyArgs hinclude hdefine s).2 hempty
  rw [Step.content, Step.content, hlines] at hless
  exact Nat.lt_irrefl _ hless

end BuildPlan

/-- Whether a compilation is given the bare prefix of directories of headers or of definitions. -/
def Step.HasBareArg (t : ToolchainProfile) : Step → Prop
  | compile s =>
    t.includeFlag ∈ s.includeDirs.map t.includeArg ∨ t.defineFlag ∈ s.defines.map t.defineArg
  | unity _ | link _ | archive _ => False

theorem Step.hasBareArg_iff {t : ToolchainProfile} {s : Step} :
    s.HasBareArg t ↔ s.HasEmptyArg := by
  cases s with
  | unity | link | archive => exact Iff.rfl
  | compile s =>
    simp [HasBareArg, HasEmptyArg, ToolchainProfile.includeArg, ToolchainProfile.defineArg]

section Targets

variable {ctx : BuildContext} {targets : List Target}

theorem map_withoutEmptyArgs_eq_self {b : Bindings} (h : ∀ t ∈ targets, ¬ t.HasEmptyArg b) :
    targets.map (·.withoutEmptyArgs b) = targets := by
  refine (List.map_congr_left fun t ht => ?_).trans targets.map_id
  exact Target.withoutEmptyArgs_of_not_hasEmptyArg (h t ht)

theorem renderTargets_congr {targets' : List Target}
    (h : targetDocument ctx targets' = targetDocument ctx targets) :
    renderTargets ctx targets' = renderTargets ctx targets := by
  rw [renderTargets_eq_bind, renderTargets_eq_bind, h]

/-- Of the entries that expand to nothing, only directories of headers and definitions show. -/
theorem targetDocument_withoutEmpty (ctx : BuildContext) (targets : List Target) :
    targetDocument ctx (targets.map (·.withoutEmpty ctx.bindings)) =
      targetDocument ctx (targets.map (·.withoutEmptyArgs ctx.bindings)) := by
  have h := BuildPlan.targetDocument_withoutEmptyFlags ctx
    (targets.map (·.withoutEmptyArgs ctx.bindings))
  rwa [List.map_map] at h

/-- Without the entries, the document is that of the plan without empty directories of headers and
definitions. -/
theorem targetDocument_withoutEmpty_of_plan {plan : BuildPlan}
    (h : BuildPlan.ofTargets ctx targets = .ok plan) :
    targetDocument ctx (targets.map (·.withoutEmpty ctx.bindings)) =
      (plan.mapSteps Step.withoutEmptyArgs).document ctx := by
  rw [targetDocument_withoutEmpty, targetDocument, BuildPlan.ofTargets_withoutEmptyArgs, h]
  rfl

/-- Where there is no entry that shows, all may be dropped. -/
theorem targetDocument_withoutEmpty_of_forall
    (h : ∀ t ∈ targets, ¬ t.HasEmptyArg ctx.bindings) :
    targetDocument ctx (targets.map (·.withoutEmpty ctx.bindings)) = targetDocument ctx targets := by
  rw [targetDocument_withoutEmpty, map_withoutEmptyArgs_eq_self h]

theorem forall_not_hasEmptyArg {plan : BuildPlan} (h : BuildPlan.ofTargets ctx targets = .ok plan)
    (hsteps : ∀ s ∈ plan.steps, ¬ s.HasEmptyArg) : ∀ t ∈ targets, ¬ t.HasEmptyArg ctx.bindings := by
  intro t ht hempty
  obtain ⟨s, hs, hs'⟩ := (BuildPlan.exists_hasEmptyArg_iff h).2 ⟨t, ht, hempty⟩
  exact hsteps s hs hs'

/-- **Dropping the entries drops the bare prefixes from the edges, and nothing else.** -/
theorem edges_withoutEmpty (hinclude : ctx.profile.includeFlag ≠ "")
    (hdefine : ctx.profile.defineFlag ≠ "") {d : Document}
    (h : targetDocument ctx targets = .ok d) :
    ∃ plan d', BuildPlan.ofTargets ctx targets = .ok plan ∧
      targetDocument ctx (targets.map (·.withoutEmpty ctx.bindings)) = .ok d' ∧
      d.groups.flatMap (·.edges) = plan.steps.map (·.edge ctx.profile) ∧
      d'.groups.flatMap (·.edges) =
        plan.steps.map (fun s => s.withoutEmptyArgs.edge ctx.profile) ∧
      (d'.groups = d.groups ↔ ∀ t ∈ targets, ¬ t.HasEmptyArg ctx.bindings) := by
  obtain ⟨plan, hplan, hd⟩ := bind_eq_ok_iff.1 h
  obtain ⟨d', hd', -⟩ := BuildPlan.exists_document_withoutEmptyArgs hd
  have h' := (targetDocument_withoutEmpty_of_plan hplan).trans hd'
  have hedges := BuildPlan.edges_of_document hd
  have hedges' := BuildPlan.edges_of_document hd'
  rw [BuildPlan.steps_mapSteps, List.map_map] at hedges'
  refine ⟨plan, d', hplan, h', hedges, hedges', fun hgroups => ?_, fun hnone => ?_⟩
  · rw [hgroups] at hedges'
    exact forall_not_hasEmptyArg hplan
      (BuildPlan.not_hasEmptyArg_of_edges_eq hinclude hdefine (hedges'.symm.trans hedges))
  · have heq := h'.symm.trans (targetDocument_withoutEmpty_of_forall hnone)
    rw [h] at heq
    exact congrArg Document.groups (Except.ok.inj heq)

/-- **Dropping the entries changes the text exactly when a bare prefix goes.** -/
theorem text_withoutEmpty (hinclude : ctx.profile.includeFlag ≠ "")
    (hdefine : ctx.profile.defineFlag ≠ "") {text : String}
    (h : renderTargets ctx targets = .ok text) :
    ∃ text', renderTargets ctx (targets.map (·.withoutEmpty ctx.bindings)) = .ok text' ∧
      (text' = text ↔ ∀ t ∈ targets, ¬ t.HasEmptyArg ctx.bindings) := by
  obtain ⟨plan, hplan, hwritten⟩ := bind_eq_ok_iff.1 h
  obtain ⟨d, hd, hrender⟩ := bind_eq_ok_iff.1 hwritten
  obtain ⟨d', hd', hroot, hrules, hdefaults, -⟩ := BuildPlan.exists_document_withoutEmptyArgs hd
  obtain ⟨text', hrender'⟩ :=
    BuildPlan.exists_render_withoutEmptyArgs hd hd' hroot hrules hdefaults hrender
  have h' : renderTargets ctx (targets.map (·.withoutEmpty ctx.bindings)) = .ok text' := by
    rw [renderTargets_eq_bind, targetDocument_withoutEmpty_of_plan hplan, hd']
    exact hrender'
  refine ⟨text', h', fun heq => ?_, fun hnone => ?_⟩
  · -- Equal texts are read back as equal lines.
    have hread := BuildPlan.decode_of_render hd hrender
    have hread' := BuildPlan.decode_of_render hd' hrender'
    rw [heq, hread] at hread'
    exact forall_not_hasEmptyArg hplan (BuildPlan.not_hasEmptyArg_of_lines_eq hinclude hdefine
      (Option.some.inj hread').symm)
  · rw [renderTargets_congr (targetDocument_withoutEmpty_of_forall hnone), h] at h'
    exact (Except.ok.inj h').symm

/-- What is to be said of the build files for targets with and without the entries that expand to
nothing. -/
structure EmptyEntries (ctx : BuildContext) (targets : List Target) : Prop where
  /-- Flags and libraries that expand to nothing may be dropped: no edge, no text and no error
  changes. -/
  flags : targetDocument ctx (targets.map (·.withoutEmptyFlags ctx.bindings)) =
      targetDocument ctx targets ∧
    renderTargets ctx (targets.map (·.withoutEmptyFlags ctx.bindings)) = renderTargets ctx targets
  /-- So may all entries, where no directory of headers and no definition expands to nothing. -/
  args : (∀ t ∈ targets, ¬ t.HasEmptyArg ctx.bindings) →
    targetDocument ctx (targets.map (·.withoutEmpty ctx.bindings)) = targetDocument ctx targets ∧
      renderTargets ctx (targets.map (·.withoutEmpty ctx.bindings)) = renderTargets ctx targets
  /-- Where one does, a compilation is given a bare prefix. -/
  bare : ∀ plan, BuildPlan.ofTargets ctx targets = .ok plan →
    ((∃ s ∈ plan.steps, s.HasBareArg ctx.profile) ↔ ∃ t ∈ targets, t.HasEmptyArg ctx.bindings)
  /-- Dropping all entries drops the bare prefixes from the edges, and nothing else. -/
  edges : ∀ d, targetDocument ctx targets = .ok d → ∃ plan d',
    BuildPlan.ofTargets ctx targets = .ok plan ∧
      targetDocument ctx (targets.map (·.withoutEmpty ctx.bindings)) = .ok d' ∧
      d.groups.flatMap (·.edges) = plan.steps.map (·.edge ctx.profile) ∧
      d'.groups.flatMap (·.edges) =
        plan.steps.map (fun s => s.withoutEmptyArgs.edge ctx.profile) ∧
      (d'.groups = d.groups ↔ ∀ t ∈ targets, ¬ t.HasEmptyArg ctx.bindings)
  /-- It changes the text where there are any. -/
  text : ∀ text, renderTargets ctx targets = .ok text → ∃ text',
    renderTargets ctx (targets.map (·.withoutEmpty ctx.bindings)) = .ok text' ∧
      (text' = text ↔ ∀ t ∈ targets, ¬ t.HasEmptyArg ctx.bindings)

/-- **Empty entries in a build file.** Dropping the entries that expand to nothing from the lists of
the targets leaves the edges and the text as they are, but for the bare prefixes that directories of
headers and definitions leave behind. -/
theorem withoutEmpty_spec (hinclude : ctx.profile.includeFlag ≠ "")
    (hdefine : ctx.profile.defineFlag ≠ "") (targets : List Target) : EmptyEntries ctx targets := by
  refine ⟨?_, fun hnone => ?_, fun plan hplan => ?_,
    fun d hd => edges_withoutEmpty hinclude hdefine hd,
    fun text ht => text_withoutEmpty hinclude hdefine ht⟩
  · have hflags := BuildPlan.targetDocument_withoutEmptyFlags ctx targets
    exact ⟨hflags, renderTargets_congr hflags⟩
  · have hall := targetDocument_withoutEmpty_of_forall hnone
    exact ⟨hall, renderTargets_congr hall⟩
  · simp only [Step.hasBareArg_iff]
    exact BuildPlan.exists_hasEmptyArg_iff hplan

end Targets

/-- An empty flag and an empty library do not show. -/
theorem withoutEmpty_spec_flags :
    let ctx : BuildContext := { BuildContext.usual with bindings := .ofList [("NONE", "")] }
    let target : Target := .ofSettings "app" .exe "app" ["a.c"]
      { cflags := some ["", "-O1"], libs := some ["\x7bNONE\x7d"], includeDirs := some ["inc"] }
    ctx.profile.includeFlag ≠ "" ∧ ctx.profile.defineFlag ≠ "" ∧
      target.withoutEmpty ctx.bindings ≠ target ∧
      renderTargets ctx [target.withoutEmpty ctx.bindings] = renderTargets ctx [target] ∧
      (renderTargets ctx [target]).isOk = true := by
  intro ctx target
  have hinclude : ctx.profile.includeFlag ≠ "" := by decide
  have hdefine : ctx.profile.defineFlag ≠ "" := by decide
  have hnone : ∀ t ∈ [target], ¬ t.HasEmptyArg ctx.bindings := by decide +kernel
  exact ⟨hinclude, hdefine, by decide +kernel,
    ((withoutEmpty_spec hinclude hdefine [target]).args hnone).2, by decide +kernel⟩

/-- An empty directory of headers and an empty definition leave a bare `-I` and a bare `-D`, each of
which takes the next argument with it. -/
theorem renderTargets_keeps_bare_prefix :
    let target : Target := .ofSettings "app" .exe "app" ["a.c"]
      { includeDirs := some [""], defines := some [""] }
    let values (targets : List Target) : Except GenerationError (List (List (String × String))) :=
      (targetDocument .usual targets).map fun d =>
        d.groups.flatMap fun g => g.edges.map (·.assignments)
    values [target] = .ok [[("flags", "-g"), ("incs", "-I -I."), ("defines", "-D")],
        [("libs", ""), ("ldflags", "")]] ∧
      values [target.withoutEmpty BuildContext.usual.bindings] =
        .ok [[("flags", "-g"), ("incs", "-I."), ("defines", "")], [("libs", ""), ("ldflags", "")]] ∧
      renderTargets .usual [target.withoutEmpty BuildContext.usual.bindings] ≠
        renderTargets .usual [target] := by
  intro target values
  refine ⟨by decide +kernel, by decide +kernel, fun heq => ?_⟩
  have hok : (renderTargets .usual [target]).isOk = true := by decide +kernel
  obtain ⟨text, ht⟩ := isOk_iff.1 hok
  obtain ⟨text', ht', hsame⟩ := text_withoutEmpty (by decide) (by decide) ht
  have htext : text' = text := Except.ok.inj (ht'.symm.trans (heq.trans ht))
  have hempty : target.HasEmptyArg BuildContext.usual.bindings := by decide +kernel
  exact hsame.1 htext target List.mem_cons_self hempty

end NinjaGen
