import NinjaGen.Proofs.Document.Commands
import NinjaGen.Proofs.Ninja.Writing

/-!
# Line breaks

A plan can be written as a build file unless one of its texts breaks a line. Planning has asked for
everything else already.

* `BuildPlan.lineTexts` are the texts of a plan that end up on lines of the file.
* `Blames texts x` says that `x` fails for line breaks in `texts` and for nothing else. Writing a
  statement does so, since it refuses the first path with a line break
  (`Ninja.RefusesFirst.blames`); each stage before it blames the texts that it escapes
  (`Blames.stepEdge`, `Blames.ruleDecl`), and stages in a row blame the texts of all of them
  (`Blames.bind`).
* `BuildPlan.exists_text_iff_forall_lineTexts` puts this together: the file can be written exactly
  when no such text has a line break, and an error names one that has.
-/

namespace NinjaGen

open Ninja

/-! ## Work that blames line breaks -/

section Blames

variable {α β : Type} {texts more : List String}

/-- Whether work fails for line breaks in some texts only: its error names a text that has one. -/
def Blames (texts : List String) (x : Except GenerationError α) : Prop :=
  ∀ e, x = .error e → ∃ s ∈ texts, hasLineBreak s = true ∧ e.root = .invalidText s

/-- What refuses the first text with a line break blames the texts. -/
theorem Ninja.RefusesFirst.blames {x : Except GenerationError α} (h : RefusesFirst texts x) :
    Blames texts x := by
  intro e he
  obtain ⟨s, hs, rfl⟩ := (h e).1 he
  exact ⟨s, List.mem_of_find?_eq_some hs, List.find?_some hs, rfl⟩

namespace Blames

theorem ok (y : α) : Blames [] (.ok y) := nofun

theorem mono {x : Except GenerationError α} (h : Blames texts x) (hsub : texts ⊆ more) :
    Blames more x := by
  intro e he
  obtain ⟨s, hs, hbreak⟩ := h e he
  exact ⟨s, hsub hs, hbreak⟩

theorem bind {x : Except GenerationError α} {f : α → Except GenerationError β}
    (hx : Blames texts x) (hf : ∀ y, x = .ok y → Blames more (f y)) :
    Blames (texts ++ more) (x >>= f) := by
  intro e he
  rcases bind_eq_error_iff.1 he with he | ⟨y, hy, he⟩
  · exact hx.mono (List.subset_append_left texts more) e he
  · exact (hf y hy).mono (List.subset_append_right texts more) e he

/-- What follows and never fails blames nothing more. -/
theorem andThen {x : Except GenerationError α} {f : α → Except GenerationError β}
    (hx : Blames texts x) (hf : ∀ y, ∃ z, f y = .ok z) : Blames texts (x >>= f) := by
  intro e he
  rcases bind_eq_error_iff.1 he with he | ⟨y, -, he⟩
  · exact hx e he
  · obtain ⟨z, hz⟩ := hf y
    rw [hz] at he
    cases he

theorem mapM {f : α → Except GenerationError β} {g : α → List String} (xs : List α)
    (h : ∀ x ∈ xs, Blames (g x) (f x)) : Blames (xs.flatMap g) (xs.mapM f) := by
  intro e he
  obtain ⟨before, x, after, rfl, -, hx⟩ := mapM_eq_error_iff.1 he
  have hmem : x ∈ before ++ x :: after := by simp
  exact (h x hmem).mono (fun s hs => List.mem_flatMap.2 ⟨x, hmem, hs⟩) e hx

/-! ### Statements -/

theorem escape (s : String) : Blames [s] (escape s) := by
  intro e he
  unfold Ninja.escape at he
  split at he
  next hbreak =>
    cases he
    exact ⟨s, List.mem_singleton_self s, hbreak, rfl⟩
  next => cases he

theorem writeAll (lineWidth : Nat) (ss : List Statement) :
    Blames (ss.flatMap Statement.paths) (Statement.writeAll lineWidth ss) := by
  intro e he
  exact mapM ss (fun s _ => (RefusesFirst.write lineWidth s).blames) e (map_eq_error_iff.1 he)

/-! ### Documents -/

theorem variableValue (values : List String) : Blames values (Document.variableValue values) := by
  have h := mapM (values.filter (· ≠ "")) fun v _ => escape v
  rw [List.flatMap_singleton'] at h
  exact (h.mono (List.filter_subset_self values)).andThen fun _ => ⟨_, rfl⟩

/-- The edge of a step is refused for line breaks in the values on its command line. -/
theorem stepEdge (t : ToolchainProfile) (s : Step) :
    Blames (s.values t) (Document.stepEdge t s) := by
  cases s with
  | unity | archive => exact ok _
  | compile s =>
    refine ((variableValue s.flags).bind fun _ _ =>
      (variableValue (s.includeDirs.map t.includeArg)).bind fun _ _ =>
        (variableValue (s.defines.map t.defineArg)).andThen fun _ => ⟨_, rfl⟩).mono ?_
    simp [Step.values]
  | link s =>
    exact (variableValue s.libs).bind fun _ _ => (variableValue s.flags).andThen fun _ => ⟨_, rfl⟩

/-- The name of a target around an error does not change what it blames. -/
theorem edgeGroup (t : ToolchainProfile) (p : PlannedTarget) :
    Blames (p.steps.flatMap (·.values t)) (Document.edgeGroup t p) := by
  have hsteps := mapM p.steps fun s _ => stepEdge t s
  intro e he
  unfold Document.edgeGroup at he
  split at he
  · cases he
  next cause hcause =>
    cases he
    rw [GenerationError.root_inTarget]
    exact hsteps cause hcause

/-- A rule is refused for line breaks in the name of its tool, provided that there is a compiler if
it compiles. -/
theorem ruleDecl {t : ToolchainProfile} {r : Rule}
    (h : ∀ l, r = .compile l → ∃ cc, t.compiler l = .ok cc) :
    Blames [t.tool r] (Document.ruleDecl t r) := by
  cases r with
  | compile l =>
    obtain ⟨cc, hcc⟩ := h l rfl
    have hcommand : Blames [cc] (t.compileCommand l) := by
      rw [ToolchainProfile.compileCommand, hcc]
      exact (escape cc).andThen fun _ => by cases t.platform <;> exact ⟨_, rfl⟩
    rw [Document.tool_compile hcc]
    exact hcommand.andThen fun _ => ⟨_, rfl⟩
  | link =>
    have hcommand : Blames [t.linker] t.linkCommand :=
      (escape t.linker).andThen fun _ => by cases t.platform <;> exact ⟨_, rfl⟩
    exact hcommand.andThen fun _ => ⟨_, rfl⟩
  | archive =>
    have hcommand : Blames [t.archiver] t.archiveCommand :=
      (escape t.archiver).andThen fun _ => by cases t.platform <;> exact ⟨_, rfl⟩
    exact hcommand.andThen fun _ => ⟨_, rfl⟩
  | unity => exact (ok _).mono (List.nil_subset _)

theorem render (d : Document) :
    Blames (d.buildRoot.text :: (d.statements (escapedText d.buildRoot.text)).flatMap
      Statement.paths) d.render := by
  refine (escape d.buildRoot.text).bind fun root hroot => ?_
  obtain ⟨-, rfl⟩ := escape_eq_ok_iff.1 hroot
  exact (writeAll d.lineWidth _).andThen fun _ => ⟨_, rfl⟩

end Blames

end Blames

/-! ## The texts of a plan -/

/-- The paths of a step. -/
def Step.pathTexts (s : Step) : List String := (s.output :: s.inputs).map (·.text)

/-- The edge of a step has the paths of the step. -/
theorem paths_edge (t : ToolchainProfile) (s : Step) : (s.edge t).paths = s.pathTexts := by
  cases s <;> simp [Step.edge, BuildEdge.paths, Step.pathTexts, Step.output, Step.inputs]

namespace BuildPlan

variable {ctx : BuildContext} {targets : List Target} {plan : BuildPlan} {d : Document}

/-- **The texts of a plan that end up on lines of the build file**: the build root, the tools that
run the steps, the values on the command lines of the steps, and the paths of the steps. -/
def lineTexts (p : BuildPlan) (ctx : BuildContext) : List String :=
  ctx.buildRoot.text :: ((p.steps.map fun s => ctx.profile.tool s.rule) ++
    p.steps.flatMap (·.values ctx.profile) ++ p.steps.flatMap (·.pathTexts))

/-- The text of the build file of a plan. -/
def text (p : BuildPlan) (ctx : BuildContext) : Except GenerationError String := do
  let document ← p.document ctx
  document.render

/-- The artifact of a target is the output of its last step. -/
theorem exists_output_eq (h : ofTargets ctx targets = .ok plan) {o : Path}
    (ho : o ∈ plan.finalOutputs) : ∃ s ∈ plan.steps, s.output = o := by
  obtain ⟨planned, hplanned, rfl⟩ := List.mem_map.1 ho
  obtain ⟨target, -, hexpand⟩ := exists_of_mem_of_map_ok (ofTargets_eq_ok_iff.1 h).1 hplanned
  obtain ⟨parts, hparts, rfl⟩ := expandTarget_eq_ok_iff.1 hexpand
  obtain ⟨-, -, -, hfinal⟩ := Expansion.parts_eq_ok_iff.1 hparts
  refine ⟨parts.last ctx target, List.mem_flatMap.2 ⟨_, hplanned, ?_⟩, ?_⟩
  · simp [Expansion.Parts.arrange]
  · rw [Expansion.Parts.last, Step.output_withObjects]
    exact (Expansion.output_of_finalStep hfinal).1

/-- The edges of a document are those of the steps of the plan. -/
theorem exists_step_of_mem_edges (h : plan.document ctx = .ok d) {g : EdgeGroup} (hg : g ∈ d.groups)
    {e : BuildEdge} (he : e ∈ g.edges) : ∃ s ∈ plan.steps, e = s.edge ctx.profile := by
  obtain ⟨-, -, hgroups, -⟩ := document_eq_ok_iff.1 h
  obtain ⟨planned, hplanned, hgroup⟩ := exists_of_mem_of_map_ok hgroups hg
  obtain ⟨s, hs, hedge⟩ := exists_of_mem_of_map_ok (Document.edgeGroup_eq_ok_iff.1 hgroup).1 he
  exact ⟨s, List.mem_flatMap.2 ⟨planned, hplanned, hs⟩, (Document.stepEdge_eq_ok_iff.1 hedge).2⟩

/-- The steps of a plan have their edges in its document, with values that can be written. -/
theorem exists_group_of_mem_steps (h : plan.document ctx = .ok d) {s : Step}
    (hs : s ∈ plan.steps) :
    (∀ v ∈ s.values ctx.profile, hasLineBreak v = false) ∧
      ∃ g ∈ d.groups, s.edge ctx.profile ∈ g.edges := by
  obtain ⟨-, -, hgroups, -⟩ := document_eq_ok_iff.1 h
  obtain ⟨planned, hplanned, hs⟩ := List.mem_flatMap.1 hs
  obtain ⟨g, hg, hgroup⟩ := exists_ok_of_mem_of_map_ok hgroups hplanned
  obtain ⟨e, he, hedge⟩ := exists_ok_of_mem_of_map_ok (Document.edgeGroup_eq_ok_iff.1 hgroup).1 hs
  obtain ⟨hvalues, rfl⟩ := Document.stepEdge_eq_ok_iff.1 hedge
  exact ⟨hvalues, g, hg, he⟩

/-- The paths in the statements of a build file are those of the steps, the artifacts once more, and
the name of the target that covers them. -/
theorem mem_statement_paths (h : plan.document ctx = .ok d) (root : String) {s : Statement}
    (hs : s ∈ d.statements root) {p : String} (hp : p ∈ s.paths) :
    (∃ step ∈ plan.steps, p ∈ step.pathTexts) ∨ (∃ o ∈ plan.finalOutputs, p = o.text) ∨
      p = Document.allTarget := by
  simp only [Document.statements, List.mem_append, List.mem_flatMap] at hs
  rcases hs with ((hs | ⟨r, -, hs⟩) | ⟨g, hg, hs⟩) | hs
  · simp only [List.mem_cons, List.not_mem_nil, or_false] at hs
    rcases hs with rfl | rfl | rfl | rfl <;> cases hp
  · simp only [Document.ruleStatements, List.mem_cons, List.not_mem_nil, or_false] at hs
    rcases hs with rfl | rfl <;> cases hp
  · simp only [Document.groupStatements, List.cons_append, List.mem_cons, List.mem_append,
      List.mem_map, List.not_mem_nil, or_false] at hs
    rcases hs with rfl | ⟨e, he, rfl⟩ | rfl
    · cases hp
    · obtain ⟨step, hstep, rfl⟩ := exists_step_of_mem_edges h hg he
      exact .inl ⟨step, hstep, paths_edge ctx.profile step ▸ hp⟩
    · cases hp
  · obtain ⟨-, -, -, hdefaults, -⟩ := document_eq_ok_iff.1 h
    have hall : p ∈ d.defaults ∨ p = Document.allTarget := by
      unfold Document.defaultStatements at hs
      split at hs
      · cases hs
      · simp only [List.mem_cons, List.not_mem_nil, or_false] at hs
        rcases hs with rfl | rfl
        · simpa [Statement.paths, BuildEdge.paths, or_comm] using hp
        · exact .inr (List.mem_singleton.1 hp)
    refine .inr (hall.imp_left fun hp => ?_)
    rw [hdefaults] at hp
    split at hp
    · obtain ⟨o, ho, rfl⟩ := List.mem_map.1 hp
      exact ⟨o, ho, rfl⟩
    · cases hp

theorem blames_document (h : ofTargets ctx targets = .ok plan) :
    Blames ((plan.steps.map fun s => ctx.profile.tool s.rule) ++
      plan.steps.flatMap (·.values ctx.profile)) (plan.document ctx) := by
  have hrules := Blames.mapM (f := Document.ruleDecl ctx.profile)
    (g := fun r => [ctx.profile.tool r]) plan.usedRules fun r hr => by
      obtain ⟨s, hs, rfl⟩ := mem_usedRules.1 hr
      exact .ruleDecl (exists_compiler h hs)
  have hgroups := Blames.mapM plan.targets fun p _ => Blames.edgeGroup ctx.profile p
  have htools : (plan.usedRules.flatMap fun r => [ctx.profile.tool r]) ⊆
      plan.steps.map fun s => ctx.profile.tool s.rule := by
    intro tool htool
    obtain ⟨r, hr, htool⟩ := List.mem_flatMap.1 htool
    obtain ⟨s, hs, rfl⟩ := mem_usedRules.1 hr
    exact List.mem_map.2 ⟨s, hs, (List.mem_singleton.1 htool).symm⟩
  rw [← List.flatMap_assoc] at hgroups
  exact (hrules.mono htools).bind fun _ _ => hgroups.andThen fun _ => ⟨_, rfl⟩

theorem blames_render (h : ofTargets ctx targets = .ok plan) (hd : plan.document ctx = .ok d) :
    Blames (ctx.buildRoot.text :: plan.steps.flatMap (·.pathTexts)) d.render := by
  intro e he
  obtain ⟨s, hs, hbreak, hroot⟩ := Blames.render d e he
  refine ⟨s, ?_, hbreak, hroot⟩
  rw [(document_eq_ok_iff.1 hd).1] at hs
  rcases List.mem_cons.1 hs with rfl | hs
  · exact List.mem_cons_self
  obtain ⟨statement, hstatement, hs⟩ := List.mem_flatMap.1 hs
  refine List.mem_cons_of_mem _ (List.mem_flatMap.2 ?_)
  rcases mem_statement_paths hd _ hstatement hs with hstep | ⟨o, ho, rfl⟩ | rfl
  · exact hstep
  · obtain ⟨step, hstep, rfl⟩ := exists_output_eq h ho
    exact ⟨step, hstep, List.mem_cons_self⟩
  · exact absurd hbreak (by decide)

/-- What is written has no line breaks. -/
theorem forall_lineTexts_of_text (h : ofTargets ctx targets = .ok plan) {text : String}
    (ht : plan.text ctx = .ok text) : ∀ s ∈ plan.lineTexts ctx, hasLineBreak s = false := by
  obtain ⟨d, hd, hrender⟩ := bind_eq_ok_iff.1 ht
  obtain ⟨hbuildRoot, hrules, -⟩ := document_eq_ok_iff.1 hd
  obtain ⟨hroot, hpaths, -⟩ := Document.render_eq_ok_iff.1 hrender
  refine List.forall_mem_cons.2 ⟨hbuildRoot ▸ hroot, List.forall_mem_append.2
    ⟨List.forall_mem_append.2 ⟨List.forall_mem_map.2 fun s hs => ?_, fun v hv => ?_⟩,
      fun p hp => ?_⟩⟩
  · obtain ⟨decl, -, hdecl⟩ := exists_ok_of_mem_of_map_ok hrules (mem_usedRules.2 ⟨s, hs, rfl⟩)
    exact (Document.exists_ruleDecl_iff (exists_compiler h hs)).1 ⟨decl, hdecl⟩
  · obtain ⟨s, hs, hv⟩ := List.mem_flatMap.1 hv
    exact (exists_group_of_mem_steps hd hs).1 v hv
  · obtain ⟨s, hs, hp⟩ := List.mem_flatMap.1 hp
    obtain ⟨-, g, hg, he⟩ := exists_group_of_mem_steps hd hs
    rw [← paths_edge ctx.profile s] at hp
    refine hpaths (.build (s.edge ctx.profile)) ?_ p hp
    simp only [Document.statements, Document.groupStatements, List.mem_append, List.mem_flatMap]
    exact .inl (.inr ⟨g, hg, by simp [he]⟩)

/-- **Writing a plan fails for line breaks, and for nothing else.** The build file of a plan has a
text exactly when none of the texts on its lines has a line break, and otherwise the cause of the
error is a line break in one of them. -/
theorem exists_text_iff_forall_lineTexts (h : ofTargets ctx targets = .ok plan) :
    ((∃ text, plan.text ctx = .ok text) ↔ ∀ s ∈ plan.lineTexts ctx, hasLineBreak s = false) ∧
      ∀ e, plan.text ctx = .error e →
        ∃ s ∈ plan.lineTexts ctx, hasLineBreak s = true ∧ e.root = .invalidText s := by
  have hblames : Blames (plan.lineTexts ctx) (plan.text ctx) := by
    refine ((blames_document h).bind fun d hd => blames_render h hd).mono ?_
    intro s hs
    simp only [lineTexts, List.mem_cons, List.mem_append] at hs ⊢
    tauto
  refine ⟨⟨fun ⟨text, ht⟩ => forall_lineTexts_of_text h ht, fun hall => ?_⟩, hblames⟩
  cases ht : plan.text ctx with
  | ok text => exact ⟨text, rfl⟩
  | error e =>
    obtain ⟨s, hs, hbreak, -⟩ := hblames e ht
    rw [hall s hs] at hbreak
    cases hbreak

/-- A line break in the name of a target does no harm, since comments are split into words; one in a
flag does, and the error names the flag. -/
theorem exists_text_of_broken_name :
    let target (flags : List String) : Target :=
      .ofSettings "a\nb" .exe "app" ["x.c"] { cflags := some flags }
    (∃ plan, ofTargets .usual [target ["-g"]] = .ok plan ∧ ∃ text, plan.text .usual = .ok text) ∧
      ∃ plan, ofTargets .usual [target ["-D\r"]] = .ok plan ∧
        ∃ e, plan.text .usual = .error e ∧ e.root = .invalidText "-D\r" := by
  intro target
  have hgood : (ofTargets .usual [target ["-g"]]).map (fun plan =>
      decide (∀ s ∈ plan.lineTexts .usual, hasLineBreak s = false)) = .ok true := by
    decide +kernel
  have hbad : (ofTargets .usual [target ["-D\r"]]).map (fun plan =>
      decide ((plan.lineTexts .usual).filter hasLineBreak = ["-D\r"])) = .ok true := by
    decide +kernel
  obtain ⟨plan, hplan, hunbroken⟩ := map_eq_ok_iff.1 hgood
  obtain ⟨plan', hplan', hbroken⟩ := map_eq_ok_iff.1 hbad
  have hmem : ∀ s, s ∈ plan'.lineTexts .usual ∧ hasLineBreak s = true ↔ s = "-D\r" := by
    intro s
    rw [← List.mem_filter, of_decide_eq_true hbroken, List.mem_singleton]
  refine ⟨⟨plan, hplan, (exists_text_iff_forall_lineTexts hplan).1.2 (of_decide_eq_true hunbroken)⟩,
    plan', hplan', ?_⟩
  obtain ⟨hiff, herror⟩ := exists_text_iff_forall_lineTexts hplan'
  cases htext : plan'.text .usual with
  | ok text =>
    obtain ⟨hs, hbreak⟩ := (hmem "-D\r").2 rfl
    rw [hiff.1 ⟨text, htext⟩ _ hs] at hbreak
    cases hbreak
  | error e =>
    obtain ⟨s, hs, hbreak, hroot⟩ := herror e htext
    obtain rfl := (hmem s).1 ⟨hs, hbreak⟩
    exact ⟨e, rfl, hroot⟩

end BuildPlan

end NinjaGen
