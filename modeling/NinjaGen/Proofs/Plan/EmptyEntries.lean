import NinjaGen.Proofs.Plan.Arrangement
import NinjaGen.Proofs.Plan.Outputs

/-!
# Empty entries of a target

An entry of a list of a target may expand to nothing. Entries that are values as they are, flags and
libraries, become empty values of the steps, among those that the profile adds. Entries that get a
prefix, directories of headers and definitions, become empty entries of the compilations.

* `Template.withoutEmpty` drops the entries that expand to nothing, and `nonempty` the values that
  are empty; one may be had for the other (`Template.expandAll_withoutEmpty`).
* `Target.withoutEmptyFlags` and `Target.withoutEmptyArgs` drop the entries of the one and of the
  other lists of a target, and `Target.withoutEmpty` drops all of them.
* `expandTarget_withoutEmptyFlags`, `expandTarget_withoutEmptyArgs`: what becomes of the steps.
* `BuildPlan.ofTargets_map` carries this over to plans (`BuildPlan.ofTargets_withoutEmptyArgs`), for
  any change of the steps that leaves alone what planning looks at (`Step.Keeps`).
-/

namespace NinjaGen

/-! ## Empty values -/

/-- The values that are not empty. -/
def nonempty (values : List String) : List String := values.filter (· ≠ "")

@[simp] theorem nonempty_append (vs ws : List String) :
    nonempty (vs ++ ws) = nonempty vs ++ nonempty ws := List.filter_append vs ws

@[simp] theorem nonempty_nonempty (vs : List String) : nonempty (nonempty vs) = nonempty vs := by
  simp [nonempty]

namespace Template

variable {b : Bindings}

/-- Whether a template expands to nothing. -/
def isEmpty (b : Bindings) (template : String) : Bool :=
  match expand b template with
  | .ok text => text = ""
  | .error _ => false

theorem isEmpty_iff {template : String} :
    isEmpty b template = true ↔ expand b template = .ok "" := by
  unfold isEmpty
  cases expand b template <;> simp

/-- The templates that do not expand to nothing. -/
def withoutEmpty (b : Bindings) (templates : List String) : List String :=
  templates.filter fun t => !isEmpty b t

/-- What expands to nothing may be dropped before or after. -/
theorem expandAll_withoutEmpty (b : Bindings) (templates : List String) :
    expandAll b (withoutEmpty b templates) = (expandAll b templates).map nonempty := by
  induction templates with
  | nil => rfl
  | cons t r ih =>
    cases ht : expand b t with
    | error e =>
      have hkept : isEmpty b t = false := by rw [isEmpty, ht]
      have hall : ∀ r, expandAll b (t :: r) = .error e := mapM_cons_of_error ht
      rw [withoutEmpty, List.filter_cons_of_pos (by simp [hkept]), hall, hall]
      rfl
    | ok v =>
      have hall : expandAll b (t :: r) = (expandAll b r).map (v :: ·) := mapM_cons_of_ok ht r
      have hdecide : isEmpty b t = decide (v = "") := by rw [isEmpty, ht]
      rw [hall]
      by_cases hv : v = ""
      · rw [withoutEmpty, List.filter_cons_of_neg (by simp [hdecide, hv]), ← withoutEmpty, ih]
        cases expandAll b r with
        | error e => rfl
        | ok vs => simp [Except.map, nonempty, hv]
      · have hcons : expandAll b (t :: withoutEmpty b r) =
            (expandAll b (withoutEmpty b r)).map (v :: ·) := mapM_cons_of_ok ht _
        rw [withoutEmpty, List.filter_cons_of_pos (by simp [hdecide, hv]), ← withoutEmpty, hcons, ih]
        cases expandAll b r with
        | error e => rfl
        | ok vs => simp [Except.map, nonempty, hv]

theorem empty_mem_of_expandAll {templates values : List String}
    (h : expandAll b templates = .ok values) :
    "" ∈ values ↔ ∃ t ∈ templates, isEmpty b t = true := by
  have hmap := mapM_eq_ok_iff.1 h
  constructor
  · intro hv
    obtain ⟨t, ht, hexpand⟩ := exists_of_mem_of_map_ok hmap hv
    exact ⟨t, ht, isEmpty_iff.2 hexpand⟩
  · rintro ⟨t, ht, hempty⟩
    obtain ⟨v, hv, hexpand⟩ := exists_ok_of_mem_of_map_ok hmap ht
    rw [isEmpty_iff.1 hempty] at hexpand
    exact Except.ok.inj hexpand ▸ hv

end Template

/-! ## Dropping entries of a target -/

namespace Target

/-- The target without the entries that expand to nothing in the lists whose entries are values as
they are. -/
def withoutEmptyFlags (b : Bindings) (t : Target) : Target :=
  { t with
    cflags := Template.withoutEmpty b t.cflags
    cxxflags := Template.withoutEmpty b t.cxxflags
    ldflags := Template.withoutEmpty b t.ldflags
    libs := Template.withoutEmpty b t.libs }

/-- The target without the entries that expand to nothing in the lists whose entries get a
prefix. -/
def withoutEmptyArgs (b : Bindings) (t : Target) : Target :=
  { t with
    includeDirs := Template.withoutEmpty b t.includeDirs
    defines := Template.withoutEmpty b t.defines }

/-- The target without the entries that expand to nothing. -/
def withoutEmpty (b : Bindings) (t : Target) : Target :=
  (t.withoutEmptyArgs b).withoutEmptyFlags b

/-- Whether a directory of headers or a definition expands to nothing. -/
def HasEmptyArg (b : Bindings) (t : Target) : Prop :=
  ∃ e ∈ t.includeDirs ++ t.defines, Template.isEmpty b e = true

instance (b : Bindings) (t : Target) : Decidable (t.HasEmptyArg b) :=
  inferInstanceAs (Decidable (∃ _ ∈ _, _))

theorem withoutEmptyArgs_of_not_hasEmptyArg {b : Bindings} {t : Target} (h : ¬ t.HasEmptyArg b) :
    t.withoutEmptyArgs b = t := by
  have hkeep : ∀ es ⊆ t.includeDirs ++ t.defines, Template.withoutEmpty b es = es := by
    intro es hes
    refine List.filter_eq_self.2 fun e he => ?_
    rw [Bool.not_eq_true', Bool.eq_false_iff]
    exact fun hempty => h ⟨e, hes he, hempty⟩
  rw [withoutEmptyArgs, hkeep _ (List.subset_append_left _ _),
    hkeep _ (List.subset_append_right _ _)]

end Target

namespace Step

/-- The step without empty flags and libraries. -/
def withoutEmptyFlags : Step → Step
  | compile s => compile { s with flags := nonempty s.flags }
  | link s => link { s with libs := nonempty s.libs, flags := nonempty s.flags }
  | s => s

/-- The step without empty directories of headers and definitions. -/
def withoutEmptyArgs : Step → Step
  | compile s =>
    compile { s with includeDirs := nonempty s.includeDirs, defines := nonempty s.defines }
  | s => s

/-- Whether a step has an empty directory of headers or definition. -/
def HasEmptyArg : Step → Prop
  | compile s => "" ∈ s.includeDirs ++ s.defines
  | _ => False

/-- Whether a change of a step leaves alone what planning looks at. -/
structure Keeps (f : Step → Step) : Prop where
  output : ∀ s, (f s).output = s.output
  wording : ∀ s, (f s).wording = s.wording
  rule : ∀ s, (f s).rule = s.rule

theorem keeps_id : Keeps id := ⟨fun _ => rfl, fun _ => rfl, fun _ => rfl⟩

theorem keeps_withoutEmptyFlags : Keeps withoutEmptyFlags :=
  ⟨fun s => by cases s <;> rfl, fun s => by cases s <;> rfl, fun s => by cases s <;> rfl⟩

theorem keeps_withoutEmptyArgs : Keeps withoutEmptyArgs :=
  ⟨fun s => by cases s <;> rfl, fun s => by cases s <;> rfl, fun s => by cases s <;> rfl⟩

end Step

/-- The planned target with its steps changed. -/
def PlannedTarget.mapSteps (f : Step → Step) (p : PlannedTarget) : PlannedTarget :=
  { p with steps := p.steps.map f }

/-! ## Expansions -/

namespace Expansion

variable (ctx : BuildContext) (target : Target)

/-- The parts without empty flags and libraries. -/
def Parts.withoutEmptyFlags (p : Parts) : Parts :=
  { p with
    settings :=
      { p.settings with
        cflags := nonempty p.settings.cflags
        cxxflags := nonempty p.settings.cxxflags }
    final := p.final.withoutEmptyFlags }

/-- The parts without empty directories of headers and definitions. -/
def Parts.withoutEmptyArgs (p : Parts) : Parts :=
  { p with
    settings :=
      { p.settings with
        includeDirs := nonempty p.settings.includeDirs
        defines := nonempty p.settings.defines } }

theorem compileSettings_withoutEmptyFlags :
    compileSettings ctx (target.withoutEmptyFlags ctx.bindings) =
      (compileSettings ctx target).map fun s =>
        { s with cflags := nonempty s.cflags, cxxflags := nonempty s.cxxflags } := by
  simp only [compileSettings, Target.withoutEmptyFlags, Template.expandAll_withoutEmpty]
  cases Template.expandAll ctx.bindings target.includeDirs with
  | error => rfl
  | ok =>
    cases Template.expandAll ctx.bindings target.defines with
    | error => rfl
    | ok =>
      cases Template.expandAll ctx.bindings target.cflags with
      | error => rfl
      | ok => cases Template.expandAll ctx.bindings target.cxxflags <;> rfl

theorem withProjectRoot_nonempty (dirs : List String) :
    withProjectRoot (nonempty dirs) = nonempty (withProjectRoot dirs) := by
  have hroot : (∃ d ∈ nonempty dirs, Path.same ⟨d⟩ ⟨"."⟩ = true) ↔
      ∃ d ∈ dirs, Path.same ⟨d⟩ ⟨"."⟩ = true := by
    refine ⟨fun ⟨d, hd, h⟩ => ⟨d, (List.mem_filter.1 hd).1, h⟩, fun ⟨d, hd, h⟩ => ⟨d, ?_, h⟩⟩
    have hne : d ≠ "" := by
      rintro rfl
      exact absurd h (by decide)
    exact List.mem_filter.2 ⟨hd, by simpa using hne⟩
  rw [withProjectRoot_eq, withProjectRoot_eq]
  split
  next h => rw [if_pos (hroot.1 h)]
  next h =>
    rw [if_neg (mt hroot.2 h), nonempty_append]
    rfl

theorem compileSettings_withoutEmptyArgs :
    compileSettings ctx (target.withoutEmptyArgs ctx.bindings) =
      (compileSettings ctx target).map fun s =>
        { s with includeDirs := nonempty s.includeDirs, defines := nonempty s.defines } := by
  simp only [compileSettings, Target.withoutEmptyArgs, Template.expandAll_withoutEmpty]
  cases Template.expandAll ctx.bindings target.includeDirs with
  | error => rfl
  | ok dirs =>
    cases Template.expandAll ctx.bindings target.defines with
    | error => rfl
    | ok =>
      cases Template.expandAll ctx.bindings target.cflags with
      | error => rfl
      | ok =>
        cases Template.expandAll ctx.bindings target.cxxflags with
        | error => rfl
        | ok => simp [Except.map, bind, Except.bind, withProjectRoot_nonempty, pure, Except.pure]

theorem finalStep_withoutEmptyFlags (output : Path) (objects : List Path) :
    (finalStep ctx (target.withoutEmptyFlags ctx.bindings) output objects).map
        Step.withoutEmptyFlags =
      (finalStep ctx target output objects).map Step.withoutEmptyFlags := by
  have hlink : ∀ mode,
      ((linkStep ctx (target.withoutEmptyFlags ctx.bindings) output objects mode).map
          Step.link).map Step.withoutEmptyFlags =
        ((linkStep ctx target output objects mode).map Step.link).map Step.withoutEmptyFlags := by
    intro mode
    simp only [linkStep, Target.withoutEmptyFlags, Template.expandAll_withoutEmpty]
    cases Template.expandAll ctx.bindings target.ldflags with
    | error => rfl
    | ok =>
      cases Template.expandAll ctx.bindings target.linkDeps with
      | error => rfl
      | ok =>
        cases Template.expandAll ctx.bindings target.libs with
        | error => rfl
        | ok =>
          simp [Except.map, bind, Except.bind, pure, Except.pure, Step.withoutEmptyFlags]
  unfold finalStep
  cases hkind : target.kind with
  | staticLib => simp [Target.withoutEmptyFlags, hkind]
  | exe => simpa [Target.withoutEmptyFlags, hkind] using hlink .executable
  | sharedLib => simpa [Target.withoutEmptyFlags, hkind] using hlink .sharedLib

/-- Flags and libraries that expand to nothing may be dropped from the target or from its parts.
What the profile adds to them is dropped from the parts only, hence the second time. -/
theorem parts_withoutEmptyFlags :
    (Expansion.parts ctx (target.withoutEmptyFlags ctx.bindings)).map Parts.withoutEmptyFlags =
      (Expansion.parts ctx target).map Parts.withoutEmptyFlags := by
  have houtput : (target.withoutEmptyFlags ctx.bindings).output = target.output := rfl
  have hsources : sources ctx (target.withoutEmptyFlags ctx.bindings) = sources ctx target := rfl
  unfold Expansion.parts
  rw [compileSettings_withoutEmptyFlags, hsources, houtput]
  cases Template.expand ctx.bindings target.output with
  | error e => rfl
  | ok output =>
    cases sources ctx target with
    | error => rfl
    | ok sources =>
      cases compileSettings ctx target with
      | error => rfl
      | ok settings =>
        have hfinal := finalStep_withoutEmptyFlags ctx target (ctx.underBuildRoot ⟨output⟩) []
        have hread : ∀ x : Except GenerationError Step, ∀ s : CompileSettings,
            (x >>= fun final => pure (Parts.mk (ctx.underBuildRoot ⟨output⟩) sources s final)).map
                Parts.withoutEmptyFlags =
              (x.map Step.withoutEmptyFlags).map fun final => ⟨ctx.underBuildRoot ⟨output⟩, sources,
                { s with cflags := nonempty s.cflags, cxxflags := nonempty s.cxxflags }, final⟩ :=
          fun x s => by cases x <;> rfl
        refine (hread _ _).trans (Eq.trans ?_ (hread _ _).symm)
        rw [hfinal]
        simp only [nonempty_nonempty]

theorem parts_withoutEmptyArgs :
    Expansion.parts ctx (target.withoutEmptyArgs ctx.bindings) =
      (Expansion.parts ctx target).map Parts.withoutEmptyArgs := by
  have houtput : (target.withoutEmptyArgs ctx.bindings).output = target.output := rfl
  have hsources : sources ctx (target.withoutEmptyArgs ctx.bindings) = sources ctx target := rfl
  have hfinal : ∀ output, finalStep ctx (target.withoutEmptyArgs ctx.bindings) output [] =
      finalStep ctx target output [] := fun _ => rfl
  simp only [Expansion.parts, compileSettings_withoutEmptyArgs, hsources, houtput, hfinal]
  cases Template.expand ctx.bindings target.output with
  | error e => rfl
  | ok output =>
    cases sources ctx target with
    | error => rfl
    | ok sources =>
      cases compileSettings ctx target with
      | error => rfl
      | ok settings =>
        simp only [bind, Except.bind, Except.map]
        cases finalStep ctx target (ctx.underBuildRoot ⟨output⟩) [] <;> rfl

variable {ctx target}

/-- A change of the compilations and of the step that produces the artifact changes the steps of an
expansion alike. -/
theorem mapSteps_arrange {f : Step → Step} (hunity : ∀ s, f (.unity s) = .unity s) (p : Parts) :
    (p.arrange ctx target).mapSteps f =
      ⟨target.name, target.kind, p.output,
        (p.unity ctx target).map .unity ++
          (compiled target (p.unity ctx target) p.sources).map
            (fun s => f (.compile (compileStep ctx target p.settings s))) ++
          [f (p.last ctx target)]⟩ := by
  have hunities : (p.unity ctx target).map (f ∘ Step.unity) = (p.unity ctx target).map .unity :=
    List.map_congr_left fun s _ => hunity s
  simp only [PlannedTarget.mapSteps, Parts.arrange, Parts.compiles, List.map_append, List.map_map,
    hunities, List.map_singleton]
  rfl

theorem arrange_withoutEmptyFlags (p : Parts) :
    (p.withoutEmptyFlags.arrange ctx target).mapSteps Step.withoutEmptyFlags =
      (p.arrange ctx target).mapSteps Step.withoutEmptyFlags := by
  have hcompile : ∀ s, (Step.compile
        (compileStep ctx target p.withoutEmptyFlags.settings s)).withoutEmptyFlags =
      (Step.compile (compileStep ctx target p.settings s)).withoutEmptyFlags := by
    intro s
    have hflags : nonempty (p.withoutEmptyFlags.settings.flags s.lang) =
        nonempty (p.settings.flags s.lang) := by
      cases s.lang <;> exact nonempty_nonempty _
    simp only [Step.withoutEmptyFlags, compileStep, nonempty_append, hflags]
    rfl
  have houtputs : (p.withoutEmptyFlags.compiles ctx target).map (·.output) =
      (p.compiles ctx target).map (·.output) := by
    simp only [Parts.compiles, List.map_map]
    rfl
  have hlast : (p.withoutEmptyFlags.last ctx target).withoutEmptyFlags =
      (p.last ctx target).withoutEmptyFlags := by
    rw [Parts.last, Parts.last, houtputs]
    cases hfinal : p.final <;>
      simp [Parts.withoutEmptyFlags, hfinal, Step.withoutEmptyFlags, Step.withObjects]
  rw [mapSteps_arrange (fun _ => rfl), mapSteps_arrange (fun _ => rfl), hlast]
  simp only [hcompile]
  rfl

theorem arrange_withoutEmptyArgs (p : Parts) (hfinal : p.final.isFinal = true) :
    p.withoutEmptyArgs.arrange ctx target =
      (p.arrange ctx target).mapSteps Step.withoutEmptyArgs := by
  have houtputs : (p.withoutEmptyArgs.compiles ctx target).map (·.output) =
      (p.compiles ctx target).map (·.output) := by
    simp only [Parts.compiles, List.map_map]
    rfl
  have hlast : p.withoutEmptyArgs.last ctx target = (p.last ctx target).withoutEmptyArgs := by
    rw [Parts.last, Parts.last, houtputs]
    change Step.withObjects _ p.final = _
    cases h : p.final with
    | unity | compile =>
      rw [h] at hfinal
      cases hfinal
    | link | archive => rfl
  have hid : (p.withoutEmptyArgs.arrange ctx target).mapSteps id =
      p.withoutEmptyArgs.arrange ctx target := by
    simp [PlannedTarget.mapSteps]
  rw [← hid, mapSteps_arrange (fun _ => rfl), mapSteps_arrange (fun _ => rfl), hlast]
  rfl

end Expansion

section Expansion

variable (ctx : BuildContext) (t : Target)

/-- Flags and libraries that expand to nothing show in empty values of the steps, and only there. -/
theorem expandTarget_withoutEmptyFlags :
    (expandTarget ctx (t.withoutEmptyFlags ctx.bindings)).map
        (PlannedTarget.mapSteps Step.withoutEmptyFlags) =
      (expandTarget ctx t).map (PlannedTarget.mapSteps Step.withoutEmptyFlags) := by
  have harrange : PlannedTarget.mapSteps Step.withoutEmptyFlags ∘ Expansion.Parts.arrange ctx t =
      (fun p => (p.arrange ctx t).mapSteps Step.withoutEmptyFlags) ∘
        Expansion.Parts.withoutEmptyFlags :=
    funext fun p => (Expansion.arrange_withoutEmptyFlags p).symm
  rw [expandTarget_eq, expandTarget_eq, map_map, map_map, harrange, ← map_map, ← map_map,
    ← Expansion.parts_withoutEmptyFlags, map_map, map_map, ← harrange]
  rfl

/-- Directories of headers and definitions that expand to nothing are empty in the compilations, and
dropping them from the target drops them there. -/
theorem expandTarget_withoutEmptyArgs :
    expandTarget ctx (t.withoutEmptyArgs ctx.bindings) =
      (expandTarget ctx t).map (PlannedTarget.mapSteps Step.withoutEmptyArgs) := by
  rw [expandTarget_eq, expandTarget_eq, Expansion.parts_withoutEmptyArgs]
  cases h : Expansion.parts ctx t with
  | error e => rfl
  | ok p =>
    obtain ⟨-, -, -, hfinal⟩ := Expansion.parts_eq_ok_iff.1 h
    have harrange := @Expansion.arrange_withoutEmptyArgs ctx t p
      (Expansion.output_of_finalStep hfinal).2
    simp only [Except.map, ← harrange]
    rfl

theorem empty_mem_withProjectRoot_iff {dirs : List String} :
    "" ∈ Expansion.withProjectRoot dirs ↔ "" ∈ dirs := by
  rw [Expansion.withProjectRoot_eq]
  split <;> simp

/-- A target has a compilation with an empty directory of headers or definition exactly when one of
its own expands to nothing. -/
theorem hasEmptyArg_expandTarget_iff {ctx : BuildContext} {t : Target} {planned : PlannedTarget}
    (h : expandTarget ctx t = .ok planned) :
    (∃ s ∈ planned.steps, s.HasEmptyArg) ↔ t.HasEmptyArg ctx.bindings := by
  obtain ⟨p, hparts, rfl⟩ := expandTarget_eq_ok_iff.1 h
  obtain ⟨-, hsources, hsettings, hfinal⟩ := Expansion.parts_eq_ok_iff.1 hparts
  obtain ⟨⟨dirs, hdirs, hroot⟩, hdefines, -⟩ := Expansion.compileSettings_eq_ok_iff.1 hsettings
  have hempty : "" ∈ p.settings.includeDirs ++ p.settings.defines ↔ t.HasEmptyArg ctx.bindings := by
    rw [List.mem_append, hroot, empty_mem_withProjectRoot_iff,
      Template.empty_mem_of_expandAll hdirs, Template.empty_mem_of_expandAll hdefines,
      Target.HasEmptyArg]
    simp only [List.mem_append, or_and_right, exists_or]
  have hcompile : ∀ c ∈ p.compiles ctx t,
      (Step.compile c).HasEmptyArg ↔ t.HasEmptyArg ctx.bindings := by
    intro c hc
    obtain ⟨s, -, rfl⟩ := List.mem_map.1 hc
    exact hempty
  constructor
  · rintro ⟨s, hs, hs'⟩
    refine (p.forall_mem_steps_iff ctx t (P := fun s => s.HasEmptyArg →
      t.HasEmptyArg ctx.bindings)).2 ⟨fun _ _ => False.elim, fun c hc => (hcompile c hc).1, ?_⟩
        s hs hs'
    have hlast : (p.last ctx t).isFinal = true := by
      rw [Expansion.Parts.last, Step.isFinal_withObjects]
      exact (Expansion.output_of_finalStep hfinal).2
    cases hstep : p.last ctx t with
    | unity | compile =>
      rw [hstep] at hlast
      cases hlast
    | link | archive => exact False.elim
  · intro ht
    have hne : p.compiles ctx t ≠ [] := Expansion.Parts.compiles_ne_nil
      (Expansion.ne_nil_of_sources hsources)
    obtain ⟨c, hc⟩ := List.exists_mem_of_ne_nil _ hne
    refine ⟨.compile c, ?_, (hcompile c hc).2 ht⟩
    simp [Expansion.Parts.arrange, hc]

end Expansion

/-! ## Plans -/

namespace BuildPlan

/-- The plan with its steps changed. -/
def mapSteps (f : Step → Step) (p : BuildPlan) : BuildPlan := ⟨p.targets.map (·.mapSteps f)⟩

section Keeps

variable {ctx : BuildContext} {f f' : Step → Step}

theorem steps_mapSteps (f : Step → Step) (p : BuildPlan) :
    (p.mapSteps f).steps = p.steps.map f := by
  simp [steps, mapSteps, PlannedTarget.mapSteps, List.map_flatMap, List.flatMap_map]

theorem finalOutputs_mapSteps (f : Step → Step) (p : BuildPlan) :
    (p.mapSteps f).finalOutputs = p.finalOutputs := by
  simp [finalOutputs, mapSteps, PlannedTarget.mapSteps, Function.comp_def]

theorem usedRules_mapSteps (hf : Step.Keeps f) (p : BuildPlan) :
    (p.mapSteps f).usedRules = p.usedRules := by
  simp only [usedRules, steps_mapSteps, List.any_map, Function.comp_def, hf.rule]

theorem claim_map (hf : Step.Keeps f) (ss : List Step) :
    ∀ made, claim made (ss.map f) = claim made ss := by
  induction ss with
  | nil => exact fun _ => rfl
  | cons s r ih =>
    intro made
    have hclaim : Claim.ofStep (f s) = Claim.ofStep s := by
      rw [Claim.ofStep, Claim.ofStep, hf.output, hf.wording]
    simp only [List.map_cons, claim, hclaim, hf.output, ih]

/-- Changes of the targets and of the steps that come to the same for every target do so for a
plan, errors included. -/
theorem expandAll_map {g : Target → Target} (hname : ∀ t, (g t).name = t.name)
    (hf : Step.Keeps f) (hf' : Step.Keeps f')
    (h : ∀ t, (expandTarget ctx (g t)).map (PlannedTarget.mapSteps f') =
      (expandTarget ctx t).map (PlannedTarget.mapSteps f)) (targets : List Target) :
    ∀ made, (expandAll ctx made (targets.map g)).map (List.map (PlannedTarget.mapSteps f')) =
      (expandAll ctx made targets).map (List.map (PlannedTarget.mapSteps f)) := by
  have hcons : ∀ (f : Step → Step) (p : PlannedTarget)
      (x : Except GenerationError (List PlannedTarget)),
      (x >>= fun rest => pure (p :: rest)).map (List.map (PlannedTarget.mapSteps f)) =
        (x.map (List.map (PlannedTarget.mapSteps f))).map (p.mapSteps f :: ·) :=
    fun f p x => by cases x <;> rfl
  induction targets with
  | nil => exact fun _ => rfl
  | cons t r ih =>
    intro made
    rw [List.map_cons, expandAll, expandAll, hname]
    rcases map_eq_map_iff.1 (h t) with ⟨e, hp', hp⟩ | ⟨p', p, hp', hp, heq⟩
    · rw [hp', hp]
      rfl
    · have hsteps : p'.steps.map f' = p.steps.map f := congrArg PlannedTarget.steps heq
      rw [hp', hp]
      dsimp only
      rw [← claim_map hf' p'.steps, hsteps, claim_map hf]
      cases claim made p.steps with
      | error e => rfl
      | ok made => exact (hcons _ _ _).trans (by rw [ih, heq]; exact (hcons _ _ _).symm)

theorem ofTargets_map {g : Target → Target} (hname : ∀ t, (g t).name = t.name)
    (hf : Step.Keeps f) (hf' : Step.Keeps f')
    (h : ∀ t, (expandTarget ctx (g t)).map (PlannedTarget.mapSteps f') =
      (expandTarget ctx t).map (PlannedTarget.mapSteps f)) (targets : List Target) :
    (ofTargets ctx (targets.map g)).map (mapSteps f') = (ofTargets ctx targets).map (mapSteps f) := by
  have hall := expandAll_map hname hf hf' h targets []
  have hplan : ∀ (f : Step → Step) (x : Except GenerationError (List PlannedTarget)),
      (x >>= fun planned => pure (BuildPlan.mk planned)).map (mapSteps f) =
        (x.map (List.map (PlannedTarget.mapSteps f))).map BuildPlan.mk :=
    fun f x => by cases x <;> rfl
  exact (hplan _ _).trans (hall ▸ (hplan _ _).symm)

end Keeps

/-- Directories of headers and definitions that expand to nothing are dropped from the compilations
of a plan when they are dropped from its targets. -/
theorem ofTargets_withoutEmptyArgs (ctx : BuildContext) (targets : List Target) :
    ofTargets ctx (targets.map (·.withoutEmptyArgs ctx.bindings)) =
      (ofTargets ctx targets).map (mapSteps Step.withoutEmptyArgs) := by
  have hid : ∀ x : Except GenerationError PlannedTarget, x.map (PlannedTarget.mapSteps id) = x := by
    intro x
    cases x <;> simp [Except.map, PlannedTarget.mapSteps]
  have hplan : ∀ x : Except GenerationError BuildPlan, x.map (mapSteps id) = x := by
    intro x
    cases x <;> simp [Except.map, mapSteps, PlannedTarget.mapSteps]
  have h := ofTargets_map (g := (·.withoutEmptyArgs ctx.bindings)) (fun _ => rfl)
    Step.keeps_withoutEmptyArgs Step.keeps_id
    (fun t => (hid _).trans (expandTarget_withoutEmptyArgs ctx t)) targets
  rwa [hplan] at h

/-- A plan has a compilation with an empty directory of headers or definition exactly when one of
the targets has one that expands to nothing. -/
theorem exists_hasEmptyArg_iff {ctx : BuildContext} {targets : List Target} {plan : BuildPlan}
    (h : ofTargets ctx targets = .ok plan) :
    (∃ s ∈ plan.steps, s.HasEmptyArg) ↔ ∃ t ∈ targets, t.HasEmptyArg ctx.bindings := by
  obtain ⟨hmap, -⟩ := ofTargets_eq_ok_iff.1 h
  constructor
  · rintro ⟨s, hs, hempty⟩
    obtain ⟨planned, hplanned, hs⟩ := List.mem_flatMap.1 hs
    obtain ⟨t, ht, hexpand⟩ := exists_of_mem_of_map_ok hmap hplanned
    exact ⟨t, ht, (hasEmptyArg_expandTarget_iff hexpand).1 ⟨s, hs, hempty⟩⟩
  · rintro ⟨t, ht, hempty⟩
    obtain ⟨planned, hplanned, hexpand⟩ := exists_ok_of_mem_of_map_ok hmap ht
    obtain ⟨s, hs, hempty⟩ := (hasEmptyArg_expandTarget_iff hexpand).2 hempty
    exact ⟨s, List.mem_flatMap.2 ⟨planned, hplanned, hs⟩, hempty⟩

end BuildPlan

end NinjaGen
