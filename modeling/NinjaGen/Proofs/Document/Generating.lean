import NinjaGen.Generate
import NinjaGen.Proofs.Document.LineBreaks
import NinjaGen.Proofs.FileTree.Writing

/-!
# Generating a build file

Generating is all or nothing: a run that fails before it writes leaves the files as they were, and
one that succeeds has written the text of the build file, and nothing else.

* `renderTargets_eq` and `plannedText_eq_ok_iff`: there is one text of the build file, whether it is
  asked for by itself or with its plan, and no error of it comes from the file system
  (`isIo_of_renderTargets`).
* `LogicalLine.isStepEdge` tells the lines of a build file that make the file of a step. There are
  as many as the plan has steps (`BuildPlan.countP_isStepEdge_lines`).
* `generate_spec` says what a run does in each case.
-/

namespace NinjaGen

open Ninja

/-! ## The text of a build file -/

section Text

variable {ctx : BuildContext} {targets : List Target} {plan : BuildPlan} {text : String}

/-- Whether an error comes from the file system. -/
def GenerationError.isIo : GenerationError → Bool
  | io _ _ => true
  | _ => false

/-- The text of the build file is the same with its plan and without. -/
theorem renderTargets_eq (ctx : BuildContext) (targets : List Target) :
    renderTargets ctx targets = (plannedText ctx targets).map (·.2) := by
  unfold renderTargets plannedText
  cases BuildPlan.ofTargets ctx targets with
  | error e => rfl
  | ok plan =>
    dsimp only [bind, Except.bind]
    cases plan.document ctx with
    | error e => rfl
    | ok document =>
      dsimp only
      cases document.render <;> rfl

theorem plannedText_eq_ok_iff :
    plannedText ctx targets = .ok (plan, text) ↔
      BuildPlan.ofTargets ctx targets = .ok plan ∧
        ∃ d, plan.document ctx = .ok d ∧ d.render = .ok text := by
  simp only [plannedText, bind_eq_ok_iff, pure, Except.pure, Except.ok.injEq, Prod.mk.injEq]
  constructor
  · rintro ⟨_, hplan, d, hd, _, ht, rfl, rfl⟩
    exact ⟨hplan, d, hd, ht⟩
  · rintro ⟨hplan, d, hd, ht⟩
    exact ⟨_, hplan, d, hd, _, ht, rfl, rfl⟩

/-- Planning does not touch the file system. -/
theorem isIo_of_ofTargets {e : GenerationError} (h : BuildPlan.ofTargets ctx targets = .error e) :
    e.isIo = false := by
  obtain ⟨_, _, _, _, -, -, hfault⟩ := BuildPlan.ofTargets_eq_error_iff.1 h
  cases hfault <;> rfl

/-- What blames line breaks does not touch the file system. -/
theorem Blames.isIo {α : Type} {texts : List String} {x : Except GenerationError α}
    {e : GenerationError} (hx : Blames texts x) (h : x = .error e) : e.isIo = false := by
  obtain ⟨s, -, -, hroot⟩ := hx e h
  cases e with
  | io => cases hroot
  | _ => rfl

/-- The text of a build file does not depend on the file system. -/
theorem isIo_of_renderTargets {e : GenerationError} (h : renderTargets ctx targets = .error e) :
    e.isIo = false := by
  simp only [renderTargets, bind_eq_error_iff] at h
  rcases h with h | ⟨plan, hplan, h | ⟨d, hd, h⟩⟩
  · exact isIo_of_ofTargets h
  · exact (BuildPlan.blames_document hplan).isIo h
  · exact (BuildPlan.blames_render hplan hd).isIo h

end Text

/-! ## Counting edges -/

namespace Ninja

/-- Whether a line says how files are made. -/
def LogicalLine.isBuild : LogicalLine → Bool
  | statement 0 text => "build ".toList.isPrefixOf text
  | _ => false

/-- Whether a line covers all artifacts by one target. -/
def LogicalLine.isAggregate : LogicalLine → Bool
  | statement 0 text => "build all: phony ".toList.isPrefixOf text
  | _ => false

/-- Whether a line makes the file of a step: it says how files are made, and not by covering all
artifacts. -/
def LogicalLine.isStepEdge (l : LogicalLine) : Bool := l.isBuild && !l.isAggregate

theorem escapePathText_cons_of_isSpecial {c : Char} (h : isSpecial c = true) (cs : List Char) :
    escapePathText (c :: cs) = '$' :: c :: escapePathText cs := by
  simp [escapePathText, h]

theorem escapePathText_cons_of_not_isSpecial {c : Char} (h : isSpecial c = false)
    (cs : List Char) : escapePathText (c :: cs) = c :: escapePathText cs := by
  simp [escapePathText, h]

/-- The colon behind a path ends it: a text that starts with a plain word and a colon has that word
for its path. -/
theorem eq_of_isPrefix_escapePathText {word : List Char} (hword : ∀ c ∈ word, isSpecial c = false)
    {cs more rest : List Char}
    (h : word ++ ':' :: more <+: escapePathText cs ++ ':' :: rest) : cs = word ∧ more <+: rest := by
  induction word generalizing cs with
  | nil =>
    cases cs with
    | nil => exact ⟨rfl, (List.cons_prefix_cons.1 h).2⟩
    | cons c cs =>
      cases hc : isSpecial c with
      | true =>
        rw [escapePathText_cons_of_isSpecial hc] at h
        cases (List.cons_prefix_cons.1 h).1
      | false =>
        rw [escapePathText_cons_of_not_isSpecial hc] at h
        obtain ⟨rfl, -⟩ := List.cons_prefix_cons.1 h
        cases hc
  | cons a word ih =>
    obtain ⟨ha, hword⟩ := List.forall_mem_cons.1 hword
    cases cs with
    | nil =>
      obtain ⟨rfl, -⟩ := List.cons_prefix_cons.1 h
      cases ha
    | cons c cs =>
      cases hc : isSpecial c with
      | true =>
        rw [escapePathText_cons_of_isSpecial hc] at h
        obtain ⟨rfl, -⟩ := List.cons_prefix_cons.1 h
        cases ha
      | false =>
        rw [escapePathText_cons_of_not_isSpecial hc, List.cons_append, List.cons_append] at h
        obtain ⟨rfl, hrest⟩ := List.cons_prefix_cons.1 h
        obtain ⟨rfl, hmore⟩ := ih hword hrest
        exact ⟨rfl, hmore⟩

end Ninja

section Counting

variable {ctx : BuildContext} {plan : BuildPlan}

/-- A variable that is assigned below a statement makes no file. -/
theorem countP_isStepEdge_variables (vs : List (String × String)) :
    (vs.flatMap (variableLines 1)).countP LogicalLine.isStepEdge = 0 := by
  rw [List.countP_eq_zero]
  intro l hl
  obtain ⟨v, -, hl⟩ := List.mem_flatMap.1 hl
  unfold variableLines at hl
  split at hl
  · cases hl
  · obtain rfl := List.mem_singleton.1 hl
    exact Bool.false_ne_true

namespace Document

/-- **The edge of a step is one line that makes a file**, whatever its paths are: what covers all
artifacts has a rule of its own. -/
theorem countP_isStepEdge_edgeLines {output rule : String} {inputs implicit : List String}
    {vs : List (String × String)} {c : Char} {name : List Char} (hrule : rule.toList = c :: name)
    (hc : c ≠ 'p') : (edgeLines output rule inputs implicit vs).countP LogicalLine.isStepEdge = 1 := by
  rw [edgeLines, List.countP_cons, countP_isStepEdge_variables, Nat.zero_add]
  refine if_pos ?_
  rw [List.cons_append]
  generalize inputs.map escapedPath ++ markedPaths "|" implicit = items
  obtain ⟨more, hmore⟩ : ∃ more, (" ".intercalate (rule :: items)).toList = c :: more := by
    rw [String.toList_intercalate, List.map_cons, hrule]
    cases items <;> exact ⟨_, rfl⟩
  have htext : ("build " ++ escapedPath output ++ ": " ++ " ".intercalate (rule :: items)).toList =
      "build ".toList ++ (escapePathText output.toList ++ ':' :: ' ' :: c :: more) := by
    simp [escapedPath, hmore]
  rw [htext, LogicalLine.isStepEdge, Bool.and_eq_true, Bool.not_eq_true']
  refine ⟨List.isPrefixOf_iff_prefix.2 (List.prefix_append _ _), Bool.eq_false_iff.2 fun hall => ?_⟩
  have hword : "all".toList ++ ':' :: " phony ".toList <+:
      escapePathText output.toList ++ ':' :: ' ' :: c :: more :=
    (List.prefix_append_right_inj "build ".toList).1 (List.isPrefixOf_iff_prefix.1 hall)
  have hplain : ∀ c ∈ "all".toList, isSpecial c = false := by simp [isSpecial]
  obtain ⟨-, hname⟩ := eq_of_isPrefix_escapePathText hplain hword
  obtain ⟨-, hname⟩ := List.cons_prefix_cons.1 hname
  exact hc (List.cons_prefix_cons.1 hname).1.symm

theorem countP_isStepEdge_stepLines (t : ToolchainProfile) (s : Step) :
    (stepLines t s).countP LogicalLine.isStepEdge = 1 := by
  cases s with
  | compile s =>
    rw [stepLines, Step.ruleName]
    cases s.lang <;> exact countP_isStepEdge_edgeLines rfl (by decide)
  | unity | link | archive => exact countP_isStepEdge_edgeLines rfl (by decide)

theorem countP_isStepEdge_targetLines (t : ToolchainProfile) (p : PlannedTarget) :
    (targetLines t p).countP LogicalLine.isStepEdge = p.steps.length := by
  have hsteps : (p.steps.flatMap (stepLines t)).countP LogicalLine.isStepEdge = p.steps.length := by
    have hone : p.steps.map (List.countP LogicalLine.isStepEdge ∘ stepLines t) =
        p.steps.map fun _ => 1 :=
      List.map_congr_left fun s _ => countP_isStepEdge_stepLines t s
    rw [List.countP_flatMap, hone, List.map_const', List.sum_replicate_nat, Nat.mul_one]
  rw [targetLines, List.countP_cons, List.countP_append, hsteps]
  rfl

end Document

namespace BuildPlan

theorem countP_isStepEdge_headLines (ctx : BuildContext) :
    (headLines ctx).countP LogicalLine.isStepEdge = 0 := by
  have hroot : ∀ root : String,
      (variableLines 0 ("builddir", root)).countP LogicalLine.isStepEdge = 0 := by
    intro root
    unfold variableLines
    dsimp only
    split
    · rfl
    · rw [List.countP_singleton, String.toList_append, String.toList_append]
      rfl
  rw [headLines, List.cons_append, List.countP_cons, List.countP_cons, List.countP_append, hroot]
  rfl

theorem countP_isStepEdge_ruleLines (p : BuildPlan) (t : ToolchainProfile) :
    (p.ruleLines t).countP LogicalLine.isStepEdge = 0 := by
  have hrule : ∀ (name : String) (vs : List (String × String)),
      (Document.ruleLines name vs).countP LogicalLine.isStepEdge = 0 := by
    intro name vs
    have hname : (LogicalLine.statement 0 ("rule " ++ name).toList).isStepEdge = false := by
      rw [String.toList_append]
      rfl
    rw [Document.ruleLines, List.cons_append, List.countP_cons, List.countP_append,
      countP_isStepEdge_variables, hname]
    rfl
  rw [ruleLines, List.countP_eq_zero]
  intro l hl
  obtain ⟨r, -, hl⟩ := List.mem_flatMap.1 hl
  exact List.countP_eq_zero.1 (hrule r.1 (r.2.assignments t)) l hl

/-- What covers all artifacts is not counted. -/
theorem countP_isStepEdge_defaultLines (p : BuildPlan) (ctx : BuildContext) :
    (p.defaultLines ctx).countP LogicalLine.isStepEdge = 0 := by
  unfold defaultLines
  split
  next h =>
    obtain ⟨first, rest, htargets⟩ := List.exists_cons_of_ne_nil h.2
    have hall : (LogicalLine.statement 0 ("build all: " ++ " ".intercalate
        ("phony" :: p.targets.map fun q => escapedPath q.output.text)).toList).isStepEdge =
          false := by
      rw [htargets, String.toList_append, String.toList_intercalate]
      rfl
    rw [List.countP_cons, hall]
    rfl
  next => rfl

/-- **A build file makes as many files by steps as its plan has steps.** -/
theorem countP_isStepEdge_lines (p : BuildPlan) (ctx : BuildContext) :
    (p.lines ctx).countP LogicalLine.isStepEdge = p.steps.length := by
  have htargets : (p.targets.flatMap (Document.targetLines ctx.profile)).countP
      LogicalLine.isStepEdge = p.steps.length := by
    rw [List.countP_flatMap, steps, List.length_flatMap]
    exact congrArg List.sum (List.map_congr_left fun q _ =>
      Document.countP_isStepEdge_targetLines ctx.profile q)
  rw [lines, List.countP_append, List.countP_append, List.countP_append,
    countP_isStepEdge_headLines, countP_isStepEdge_ruleLines, htargets,
    countP_isStepEdge_defaultLines]
  omega

end BuildPlan

end Counting

/-! ## What a run does -/

section Run

variable {t u : FileTree} {ctx : BuildContext} {output : Path} {targets : List Target}

theorem generate_eq_ok_iff {summary : GenerateSummary} :
    generate t ctx output targets = (u, .ok summary) ↔
      ∃ plan text, plannedText ctx targets = .ok (plan, text) ∧
        t.writeFile output text = (u, .ok ()) ∧
        summary = ⟨output, plan.targets.length, plan.steps.length, text.utf8ByteSize⟩ := by
  unfold generate
  cases plannedText ctx targets with
  | error e => simp
  | ok planned =>
    obtain ⟨plan, text⟩ := planned
    simp only [Except.ok.injEq, Prod.mk.injEq]
    generalize hwritten : t.writeFile output text = written
    obtain ⟨v, outcome⟩ := written
    cases outcome <;> simp [hwritten, eq_comm]

theorem generate_eq_error_iff {e : GenerationError} :
    generate t ctx output targets = (u, .error e) ↔
      (plannedText ctx targets = .error e ∧ u = t) ∨
        ∃ plan text reason, plannedText ctx targets = .ok (plan, text) ∧
          t.writeFile output text = (u, .error reason) ∧ e = .io output reason.message := by
  unfold generate
  cases plannedText ctx targets with
  | error e => simp [eq_comm, and_comm]
  | ok planned =>
    obtain ⟨plan, text⟩ := planned
    simp only [Except.ok.injEq, Prod.mk.injEq]
    generalize hwritten : t.writeFile output text = written
    obtain ⟨v, outcome⟩ := written
    cases outcome <;> simp [hwritten, eq_comm]

/-- **Generating is all or nothing.** A run fails for another reason than the file system exactly
when there is no text of the build file, with the same error and with the files as they were. When
it succeeds, the output holds that text and nothing else has changed, new directories on the way to
it apart; the counts are those of the targets, of the steps of the plan, which are as many as the
text has edges besides that of all artifacts, and of the bytes of the text. What is left is a file
system that refuses the text, and then nothing that was there has changed. -/
theorem generate_spec (t : FileTree) (ctx : BuildContext) (output : Path) (targets : List Target) :
    (∀ e, renderTargets ctx targets = .error e ↔
        (generate t ctx output targets).2 = .error e ∧ e.isIo = false) ∧
      (∀ e, renderTargets ctx targets = .error e →
        generate t ctx output targets = (t, .error e)) ∧
      (∀ u summary, generate t ctx output targets = (u, .ok summary) →
        ∃ plan text lines, BuildPlan.ofTargets ctx targets = .ok plan ∧
          renderTargets ctx targets = .ok text ∧ t.Written output text u ∧
          summary = ⟨output, targets.length, plan.steps.length, text.utf8ByteSize⟩ ∧
          decode text.toList = some lines ∧
          lines.countP LogicalLine.isStepEdge = plan.steps.length) ∧
      ∀ u e, generate t ctx output targets = (u, .error e) → e.isIo = true →
        t.Gains u output.passed ∧ ∃ text reason, renderTargets ctx targets = .ok text ∧
          t.writeFile output text = (u, .error reason) ∧ e = .io output reason.message := by
  have hplanned : ∀ e, renderTargets ctx targets = .error e ↔ plannedText ctx targets = .error e :=
    fun e => by rw [renderTargets_eq, map_eq_error_iff]
  have htext : ∀ plan text, plannedText ctx targets = .ok (plan, text) →
      renderTargets ctx targets = .ok text := fun plan text h => by rw [renderTargets_eq, h]; rfl
  refine ⟨fun e => ⟨fun h => ?_, fun ⟨h, hio⟩ => ?_⟩, fun e h => generate_of_error ((hplanned e).1 h),
    fun u summary h => ?_, fun u e h hio => ?_⟩
  · rw [generate_of_error ((hplanned e).1 h)]
    exact ⟨rfl, isIo_of_renderTargets h⟩
  · rcases generate_eq_error_iff.1 (Prod.ext rfl h) with ⟨h, -⟩ | ⟨_, _, _, -, -, rfl⟩
    · exact (hplanned e).2 h
    · cases hio
  · obtain ⟨plan, text, hok, hwrite, rfl⟩ := generate_eq_ok_iff.1 h
    obtain ⟨hplan, d, hd, ht⟩ := plannedText_eq_ok_iff.1 hok
    have hlength : plan.targets.length = targets.length := by
      simpa using congrArg List.length (BuildPlan.ofTargets_eq_ok_iff.1 hplan).1.symm
    exact ⟨plan, text, plan.lines ctx, hplan, htext plan text hok,
      FileTree.written_of_writeFile hwrite, by rw [hlength], BuildPlan.decode_of_render hd ht,
      plan.countP_isStepEdge_lines ctx⟩
  · rcases generate_eq_error_iff.1 h with ⟨hfail, -⟩ | ⟨plan, text, reason, hok, hwrite, rfl⟩
    · rw [isIo_of_renderTargets ((hplanned e).2 hfail)] at hio
      cases hio
    · exact ⟨FileTree.gains_of_writeFile hwrite, text, reason, htext plan text hok, hwrite, rfl⟩

/-- A build file that replaces an earlier one, of which the path leads through a new directory; no
build file of a target without sources; and none where a directory is. -/
theorem generate_spec_replacing :
    let t := ((FileTree.empty.put ["proj"] .directory).put ["proj", "main.c"] (.file "")).put
      ["proj", "build.ninja"] (.file "# earlier")
    let output : Path := ⟨"/proj/out/../build.ninja"⟩
    let target : Target := .ofSettings "app" .exe "bin/app" ["main.c"] {}
    (∃ u summary plan text lines, generate t .usual output [target] = (u, .ok summary) ∧
      BuildPlan.ofTargets .usual [target] = .ok plan ∧ renderTargets .usual [target] = .ok text ∧
      t.Written output text u ∧ summary = ⟨output, 1, plan.steps.length, text.utf8ByteSize⟩ ∧
      decode text.toList = some lines ∧
      lines.countP LogicalLine.isStepEdge = plan.steps.length) ∧
    (∃ e, renderTargets .usual [{ target with sources := [] }] = .error e ∧
      generate t .usual output [{ target with sources := [] }] = (t, .error e)) ∧
    ∃ u e, generate t .usual ⟨"/proj"⟩ [target] = (u, .error e) ∧ e.isIo = true ∧
      t.Gains u (Path.passed ⟨"/proj"⟩) := by
  intro t output target
  have hok : (generate t .usual output [target]).2.isOk = true := by decide +kernel
  have hsources : (renderTargets .usual [{ target with sources := [] }]).isOk = false := by
    decide +kernel
  have hplace : (match (generate t .usual ⟨"/proj"⟩ [target]).2 with
      | .error e => e.isIo
      | .ok _ => false) = true := by decide +kernel
  refine ⟨?_, ?_, ?_⟩
  · obtain ⟨-, -, hsuccess, -⟩ := generate_spec t .usual output [target]
    obtain ⟨summary, hsummary⟩ := isOk_iff.1 hok
    obtain ⟨plan, text, lines, h⟩ := hsuccess _ summary (Prod.ext rfl hsummary)
    exact ⟨_, summary, plan, text, lines, Prod.ext rfl hsummary, h⟩
  · obtain ⟨-, hfailure, -⟩ := generate_spec t .usual output [{ target with sources := [] }]
    cases he : renderTargets .usual [{ target with sources := [] }] with
    | ok text =>
      rw [he] at hsources
      cases hsources
    | error e => exact ⟨e, rfl, hfailure e he⟩
  · obtain ⟨-, -, -, hrefused⟩ := generate_spec t .usual ⟨"/proj"⟩ [target]
    split at hplace
    next e he => exact ⟨_, e, Prod.ext rfl he, hplace, (hrefused _ e (Prod.ext rfl he) hplace).1⟩
    next => cases hplace

end Run

end NinjaGen
