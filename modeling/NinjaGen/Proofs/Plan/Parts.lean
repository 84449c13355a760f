import NinjaGen.Expansion

/-!
# The parts of an expansion

What is read of a target does not depend on whether its sources are collected; that only decides
how the steps are arranged. So an expansion is read first and arranged then.

* `Expansion.Parts` is what is read of a target: the place of its artifact, its sources, the
  settings for compiling, and the step that produces the artifact, still without objects.
* `expandTarget_eq`: an expansion arranges the parts of the target, and fails as reading them does.
* `Expansion.parts_eq_ok_iff`, `Expansion.source_eq_ok_iff` and `Expansion.sources_eq_ok_iff` say
  what can be read.
-/

namespace NinjaGen

namespace Step

/-- The objects that the step puts together. -/
def objects : Step → List Path
  | link s => s.objects
  | archive s => s.objects
  | unity _ | compile _ => []

/-- The step with those objects to put together. -/
def withObjects (objects : List Path) : Step → Step
  | link s => link { s with objects := objects }
  | archive s => archive { s with objects := objects }
  | s => s

@[simp] theorem output_withObjects (objects : List Path) (s : Step) :
    (s.withObjects objects).output = s.output := by cases s <;> rfl

@[simp] theorem isFinal_withObjects (objects : List Path) (s : Step) :
    (s.withObjects objects).isFinal = s.isFinal := by cases s <;> rfl

theorem objects_withObjects {s : Step} (h : s.isFinal = true) (objects : List Path) :
    (s.withObjects objects).objects = objects := by
  cases s with
  | unity | compile => cases h
  | link | archive => rfl

end Step

namespace Expansion

variable {ctx : BuildContext} {target : Target}

/-! ## Reading a target -/

/-- What is read of a target before its steps are arranged. -/
structure Parts where
  /-- The artifact. -/
  output : Path
  sources : List SourceFile
  settings : CompileSettings
  /-- The step that produces the artifact, without objects. -/
  final : Step

/-- The parts of the expansion of a target. -/
def parts (ctx : BuildContext) (target : Target) : Except GenerationError Parts := do
  let output ← Template.expand ctx.bindings target.output
  let output := ctx.underBuildRoot ⟨output⟩
  let sources ← sources ctx target
  let settings ← compileSettings ctx target
  let final ← finalStep ctx target output []
  pure ⟨output, sources, settings, final⟩

namespace Parts

variable (ctx : BuildContext) (target : Target) (parts : Parts)

/-- The steps that write the unity sources. -/
def unity : List UnityStep := unitySteps ctx target parts.output parts.sources

/-- The compilations. -/
def compiles : List CompileStep :=
  (compiled target (parts.unity ctx target) parts.sources).map
    (compileStep ctx target parts.settings)

/-- The step that produces the artifact of the objects. -/
def last : Step := parts.final.withObjects ((parts.compiles ctx target).map (·.output))

/-- The target with its steps. -/
def arrange : PlannedTarget :=
  ⟨target.name, target.kind, parts.output,
    (parts.unity ctx target).map .unity ++ (parts.compiles ctx target).map .compile ++
      [parts.last ctx target]⟩

/-- Something holds of all steps when it does of the unity steps, of the compilations and of the
step that produces the artifact. -/
theorem forall_mem_steps_iff {P : Step → Prop} :
    (∀ s ∈ (parts.arrange ctx target).steps, P s) ↔
      (∀ s ∈ parts.unity ctx target, P (.unity s)) ∧
        (∀ s ∈ parts.compiles ctx target, P (.compile s)) ∧ P (parts.last ctx target) := by
  simp only [arrange, List.forall_mem_append, List.forall_mem_map, List.forall_mem_singleton,
    and_assoc]

variable {ctx target} {parts}

/-- The steps in front of the one that produces the artifact. -/
theorem mem_steps_iff_of_not_isFinal (h : parts.final.isFinal = true) {s : Step}
    (hs : s.isFinal = false) :
    s ∈ (parts.arrange ctx target).steps ↔
      (∃ u ∈ parts.unity ctx target, .unity u = s) ∨
        ∃ c ∈ parts.compiles ctx target, .compile c = s := by
  have hlast : s ≠ parts.last ctx target := by
    rintro rfl
    rw [last, Step.isFinal_withObjects, h] at hs
    cases hs
  simp only [arrange, List.mem_append, List.mem_map, List.mem_singleton, hlast, or_false]

theorem unity_mem_steps_iff (h : parts.final.isFinal = true) {u : UnityStep} :
    .unity u ∈ (parts.arrange ctx target).steps ↔ u ∈ parts.unity ctx target := by
  rw [mem_steps_iff_of_not_isFinal h rfl]
  simp

theorem compile_mem_steps_iff (h : parts.final.isFinal = true) {c : CompileStep} :
    .compile c ∈ (parts.arrange ctx target).steps ↔ c ∈ parts.compiles ctx target := by
  rw [mem_steps_iff_of_not_isFinal h rfl]
  simp

variable (parts)

/-! The steps of a target that wants its sources compiled one by one, and of one that wants them
collected. -/

theorem unity_of_apart (h : target.unity = false) : parts.unity ctx target = [] := by
  rw [unity, unitySteps, h, if_neg (by simp)]

theorem compiles_of_apart (h : target.unity = false) :
    parts.compiles ctx target = parts.sources.map (compileStep ctx target parts.settings) := by
  rw [compiles, compiled, h, if_neg (by simp)]

theorem unity_of_collected (h : target.unity = true) :
    parts.unity ctx target = (batches ctx.options.unityBatchSize parts.sources).map fun b =>
      { output := b.pathIn (parts.output.appendText ".unity")
        members := b.members
        lang := b.lang
        target := target.name } := by
  rw [unity, unitySteps, h, if_pos rfl]

theorem compiles_of_collected (h : target.unity = true) :
    parts.compiles ctx target = (parts.unity ctx target).map fun s =>
      compileStep ctx target parts.settings ⟨s.output, s.lang⟩ := by
  rw [compiles, compiled, h, if_pos rfl, List.map_map]
  rfl

end Parts

/-- The step that produces the artifact is made whatever the objects are. -/
theorem finalStep_eq (ctx : BuildContext) (target : Target) (output : Path) (objects : List Path) :
    finalStep ctx target output objects =
      (finalStep ctx target output []).map (Step.withObjects objects) := by
  have hlink : ∀ mode, (linkStep ctx target output objects mode).map Step.link =
      ((linkStep ctx target output [] mode).map Step.link).map (Step.withObjects objects) := by
    intro mode
    unfold linkStep
    cases Template.expandAll ctx.bindings target.ldflags with
    | error => rfl
    | ok =>
      cases Template.expandAll ctx.bindings target.linkDeps with
      | error => rfl
      | ok =>
        cases Template.expandAll ctx.bindings target.libs with
        | error => rfl
        | ok => rfl
  unfold finalStep
  split
  · rfl
  · exact hlink .executable
  · exact hlink .sharedLib

/-- The step that produces the artifact produces it where it is asked to. -/
theorem output_of_finalStep {ctx : BuildContext} {target : Target} {output : Path}
    {objects : List Path} {s : Step} (h : finalStep ctx target output objects = .ok s) :
    s.output = output ∧ s.isFinal = true := by
  have hlink : ∀ {mode}, (linkStep ctx target output objects mode).map Step.link = .ok s →
      s.output = output ∧ s.isFinal = true := by
    intro mode h
    obtain ⟨link, hlink, rfl⟩ := map_eq_ok_iff.1 h
    simp only [linkStep, bind_eq_ok_iff] at hlink
    obtain ⟨_, -, _, -, _, -, hlink⟩ := hlink
    cases hlink
    exact ⟨rfl, rfl⟩
  unfold finalStep at h
  split at h
  · cases h
    exact ⟨rfl, rfl⟩
  · exact hlink h
  · exact hlink h

end Expansion

/-- **An expansion arranges the parts of the target**, and fails as reading them does. -/
theorem expandTarget_eq (ctx : BuildContext) (target : Target) :
    expandTarget ctx target =
      (Expansion.parts ctx target).map (Expansion.Parts.arrange ctx target) := by
  unfold expandTarget Expansion.parts
  cases Template.expand ctx.bindings target.output with
  | error => rfl
  | ok output =>
    cases Expansion.sources ctx target with
    | error => rfl
    | ok sources =>
      cases Expansion.compileSettings ctx target with
      | error => rfl
      | ok settings =>
        simp only [bind, Except.bind]
        rw [Expansion.finalStep_eq]
        cases Expansion.finalStep ctx target (ctx.underBuildRoot ⟨output⟩) [] with
        | error => rfl
        | ok final => rfl

theorem expandTarget_eq_ok_iff {ctx : BuildContext} {target : Target} {planned : PlannedTarget} :
    expandTarget ctx target = .ok planned ↔
      ∃ parts, Expansion.parts ctx target = .ok parts ∧ parts.arrange ctx target = planned := by
  rw [expandTarget_eq, map_eq_ok_iff]

namespace Expansion

variable {ctx : BuildContext} {target : Target}

theorem parts_eq_ok_iff {parts : Parts} :
    Expansion.parts ctx target = .ok parts ↔
      (∃ output, Template.expand ctx.bindings target.output = .ok output ∧
        parts.output = ctx.underBuildRoot ⟨output⟩) ∧
      sources ctx target = .ok parts.sources ∧
      compileSettings ctx target = .ok parts.settings ∧
      finalStep ctx target parts.output [] = .ok parts.final := by
  simp only [Expansion.parts, bind_eq_ok_iff]
  constructor
  · rintro ⟨output, houtput, sources, hsources, settings, hsettings, final, hfinal, h⟩
    cases h
    exact ⟨⟨output, houtput, rfl⟩, hsources, hsettings, hfinal⟩
  · rintro ⟨⟨output, houtput, hplace⟩, hsources, hsettings, hfinal⟩
    rw [hplace] at hfinal
    refine ⟨output, houtput, _, hsources, _, hsettings, _, hfinal, ?_⟩
    rw [← hplace]
    rfl

/-! ## Sources -/

theorem source_eq_ok_iff {template : String} {s : SourceFile} :
    source ctx template = .ok s ↔
      Template.expand ctx.bindings template = .ok s.path.text ∧
        Language.ofPath? s.path = some s.lang ∧ ∃ c, ctx.profile.compiler s.lang = .ok c := by
  rw [source, bind_eq_ok_iff]
  constructor
  · rintro ⟨path, hpath, h⟩
    split at h
    · cases h
    next hs =>
      obtain ⟨c, hc, h⟩ := bind_eq_ok_iff.1 h
      cases h
      obtain ⟨hs, hlang⟩ := SourceFile.ofPath?_eq_some_iff.1 hs
      rw [hs]
      exact ⟨hpath, hlang, c, hc⟩
  · rintro ⟨hpath, hlang, c, hc⟩
    refine ⟨_, hpath, ?_⟩
    have hs : SourceFile.ofPath? ⟨s.path.text⟩ = some s :=
      SourceFile.ofPath?_eq_some_iff.2 ⟨rfl, hlang⟩
    rw [hs]
    exact bind_eq_ok_iff.2 ⟨c, hc, rfl⟩

/-- The components of the object of a source. -/
def objectComponents (ctx : BuildContext) (s : SourceFile) : List Component :=
  (ctx.objectPath s.path).components

theorem sourcesFrom_eq_ok_iff {name : String} {templates : List String} {ss : List SourceFile}
    {seen : List (List Component)} :
    sourcesFrom ctx name seen templates = .ok ss ↔
      templates.map (source ctx) = ss.map .ok ∧ (ss.map (objectComponents ctx)).Nodup ∧
        ∀ s ∈ ss, objectComponents ctx s ∉ seen := by
  induction templates generalizing seen ss with
  | nil => cases ss <;> simp [sourcesFrom]
  | cons t r ih =>
    rw [sourcesFrom, bind_eq_ok_iff]
    cases ss with
    | nil =>
      simp only [List.map_nil, List.map_cons, reduceCtorEq, false_and, iff_false, not_exists,
        not_and]
      intro s _ h
      split at h
      · cases h
      · obtain ⟨_, -, h⟩ := bind_eq_ok_iff.1 h
        cases h
    | cons s ss =>
      simp only [List.map_cons, List.cons.injEq, List.nodup_cons, List.mem_map, List.mem_cons,
        forall_eq_or_imp, not_exists, not_and]
      constructor
      · rintro ⟨s', hs', h⟩
        split at h
        · cases h
        next hseen =>
          obtain ⟨rest, hrest, h⟩ := bind_eq_ok_iff.1 h
          cases h
          obtain ⟨hmap, hnodup, hfresh⟩ := ih.1 hrest
          simp only [List.mem_cons, not_or] at hfresh
          exact ⟨⟨hs', hmap⟩, ⟨fun x hx => (hfresh x hx).1, hnodup⟩, hseen,
            fun x hx => (hfresh x hx).2⟩
      · rintro ⟨⟨hs, hmap⟩, ⟨hne, hnodup⟩, hseen, hfresh⟩
        refine ⟨s, hs, ?_⟩
        have hrest : sourcesFrom ctx name (objectComponents ctx s :: seen) r = .ok ss :=
          ih.2 ⟨hmap, hnodup, fun x hx hm => (List.mem_cons.1 hm).elim (hne x hx) (hfresh x hx)⟩
        exact (if_neg hseen).trans (bind_eq_ok_iff.2 ⟨ss, hrest, rfl⟩)

/-- The sources of a target can be read when there are any, each can be, and no two have the same
object. -/
theorem sources_eq_ok_iff {ss : List SourceFile} :
    sources ctx target = .ok ss ↔
      target.sources ≠ [] ∧ target.sources.map (source ctx) = ss.map .ok ∧
        (ss.map (objectComponents ctx)).Nodup := by
  unfold sources
  split
  next h => simp [h]
  next h => simp [h, sourcesFrom_eq_ok_iff]

theorem ne_nil_of_sources {ss : List SourceFile} (h : sources ctx target = .ok ss) : ss ≠ [] := by
  obtain ⟨hne, hmap, -⟩ := sources_eq_ok_iff.1 h
  rintro rfl
  exact hne (List.map_eq_nil_iff.1 hmap)

/-- There is a compiler for whatever is compiled. -/
theorem exists_compiler {parts : Parts} (h : Expansion.parts ctx target = .ok parts)
    {c : CompileStep} (hc : c ∈ parts.compiles ctx target) :
    ∃ cc, ctx.profile.compiler c.lang = .ok cc := by
  obtain ⟨-, hsources, -⟩ := parts_eq_ok_iff.1 h
  obtain ⟨-, hmap, -⟩ := sources_eq_ok_iff.1 hsources
  have hlang : ∀ s ∈ parts.sources, ∃ cc, ctx.profile.compiler s.lang = .ok cc := by
    intro s hs
    obtain ⟨template, -, hsource⟩ := exists_of_mem_of_map_ok hmap hs
    exact (source_eq_ok_iff.1 hsource).2.2
  cases hunity : target.unity with
  | false =>
    rw [parts.compiles_of_apart hunity] at hc
    obtain ⟨s, hs, rfl⟩ := List.mem_map.1 hc
    exact hlang s hs
  | true =>
    rw [parts.compiles_of_collected hunity, parts.unity_of_collected hunity, List.map_map] at hc
    obtain ⟨b, hb, rfl⟩ := List.mem_map.1 hc
    -- A batch has a member, whose language is that of the batch.
    obtain ⟨m, hm⟩ := List.exists_mem_of_ne_nil _ (ne_nil_of_mem_batches hb)
    obtain ⟨s, hs, -, hslang⟩ := exists_source_of_mem_members hb hm
    have hcc := hlang s hs
    rwa [hslang] at hcc

end Expansion

end NinjaGen
