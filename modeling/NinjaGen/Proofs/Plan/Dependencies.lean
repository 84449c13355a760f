import NinjaGen.Proofs.Plan.Outputs
import NinjaGen.Proofs.Plan.Parts
import Mathlib.Logic.Relation

/-!
# Dependencies between steps

A step depends on the step that produces a file it reads. The files that an expansion places between
its own steps, unity sources and objects, only ever lead down: from the artifact to compilations and
from those to unity sources. What leads back is a file that a target names.

* `BuildPlan.DependsOn` is the relation and `BuildPlan.IsAcyclic` says that no chain of it closes.
* `Step.level` is the height of a step, and `Target.Names` says that a target names a file that a
  step produces as one that another reads.
* `Expansion.Parts.level_or_names` is what one dependency of an expansion can be.
* `BuildPlan.dependsOn_spec` is the result on chains of dependencies; a plan may be cyclic
  (`BuildPlan.not_isAcyclic_of_named_artifact`).
-/

namespace NinjaGen

/-! ## Levels -/

namespace Step

/-- The height of a step: unity sources are compiled, and objects are put together. -/
def level : Step → Nat
  | unity _ => 0
  | compile _ => 1
  | link _ | archive _ => 2

/-- The files that the step reads besides objects. -/
def otherInputs : Step → List Path
  | unity s => s.members
  | compile s => [s.source]
  | link s => s.implicitInputs
  | archive _ => []

theorem mem_inputs_iff {s : Step} {p : Path} :
    p ∈ s.inputs ↔ p ∈ s.objects ∨ p ∈ s.otherInputs := by
  cases s <;> simp [inputs, objects, otherInputs]

theorem level_le (s : Step) : s.level ≤ 2 := by cases s <;> simp [level]

theorem level_eq_two_iff {s : Step} : s.level = 2 ↔ s.isFinal = true := by
  cases s <;> simp [level, isFinal]

@[simp] theorem otherInputs_withObjects (objects : List Path) (s : Step) :
    (s.withObjects objects).otherInputs = s.otherInputs := by cases s <;> rfl

@[simp] theorem level_withObjects (objects : List Path) (s : Step) :
    (s.withObjects objects).level = s.level := by cases s <;> rfl

end Step

/-! ## Files that a target names -/

namespace Target

/-- The templates of the files that a target names for a step of it to read. -/
def named (target : Target) : Step → List String
  | .unity _ | .compile _ => target.sources
  | .link _ => target.linkDeps
  | .archive _ => []

/-- Whether a target names the file that `t` produces as one that its step `s` reads. -/
def Names (target : Target) (ctx : BuildContext) (s t : Step) : Prop :=
  ∃ template ∈ target.named s, ∃ path, Template.expand ctx.bindings template = .ok path ∧
    ⟨path⟩ ∈ s.otherInputs ∧ Path.same ⟨path⟩ t.output = true

end Target

namespace Expansion

variable {ctx : BuildContext} {target : Target} {parts : Parts}

/-- The sources of a target are those that it names. -/
theorem exists_template_of_mem_sources {ss : List SourceFile} (h : sources ctx target = .ok ss)
    {s : SourceFile} (hs : s ∈ ss) :
    ∃ template ∈ target.sources, Template.expand ctx.bindings template = .ok s.path.text := by
  obtain ⟨-, hmap, -⟩ := sources_eq_ok_iff.1 h
  obtain ⟨template, htemplate, hsource⟩ := exists_of_mem_of_map_ok hmap hs
  exact ⟨template, htemplate, (source_eq_ok_iff.1 hsource).1⟩

/-- What the step that produces the artifact depends on besides objects is what the target names. -/
theorem exists_template_of_mem_otherInputs {output : Path} {s : Step}
    (h : finalStep ctx target output [] = .ok s) {p : Path} (hp : p ∈ s.otherInputs)
    (objects : List Path) :
    ∃ template ∈ target.named (s.withObjects objects),
      Template.expand ctx.bindings template = .ok p.text := by
  have hlink : ∀ {mode}, (linkStep ctx target output [] mode).map Step.link = .ok s →
      ∃ template ∈ target.named (s.withObjects objects),
        Template.expand ctx.bindings template = .ok p.text := by
    intro mode h
    obtain ⟨link, hlink, rfl⟩ := map_eq_ok_iff.1 h
    simp only [linkStep, bind_eq_ok_iff] at hlink
    obtain ⟨_, -, deps, hdeps, _, -, hlink⟩ := hlink
    cases hlink
    obtain ⟨path, hpath, rfl⟩ := List.mem_map.1 hp
    exact exists_of_mem_of_map_ok (mapM_eq_ok_iff.1 hdeps) hpath
  unfold finalStep at h
  split at h
  · cases h
    cases hp
  · exact hlink h
  · exact hlink h

namespace Parts

/-- **A dependency of a step** on one of many steps that produce different files leads down by one
level in the same expansion, or is on a file that the target names. -/
theorem level_or_names (h : Expansion.parts ctx target = .ok parts) {steps : List Step}
    (hd : BuildPlan.DistinctOutputs steps)
    (hsub : ∀ s ∈ (parts.arrange ctx target).steps, s ∈ steps) {t : Step} (ht : t ∈ steps) :
    ∀ s ∈ (parts.arrange ctx target).steps, ∀ p ∈ s.inputs, p.same t.output = true →
      t ∈ (parts.arrange ctx target).steps ∧ s.level = t.level + 1 ∨ target.Names ctx s t := by
  obtain ⟨-, hsources, -, hfinal⟩ := parts_eq_ok_iff.1 h
  -- A file that the expansion places is produced by its own step and by no other.
  have hown : ∀ {u : Step}, u ∈ (parts.arrange ctx target).steps → u.output.same t.output = true →
      t = u :=
    fun hu hsame => (BuildPlan.eq_of_same hd (hsub _ hu) ht (Path.same_iff.1 hsame)).symm
  have hsteps := (parts.forall_mem_steps_iff ctx target).1 fun s hs => hs
  have hnamed : ∀ {s : Step}, target.named s = target.sources → ∀ src ∈ parts.sources,
      src.path ∈ s.otherInputs → src.path.same t.output = true → target.Names ctx s t := by
    intro s hs src hsrc hmem hsame
    obtain ⟨template, htemplate, hexpand⟩ := exists_template_of_mem_sources hsources hsrc
    exact ⟨template, hs ▸ htemplate, _, hexpand, hmem, hsame⟩
  rw [forall_mem_steps_iff]
  refine ⟨fun u hu p hp hsame => .inr ?_, fun c hc p hp hsame => ?_, fun p hp hsame => ?_⟩
  · cases hunity : target.unity with
    | false =>
      rw [parts.unity_of_apart hunity] at hu
      cases hu
    | true =>
      rw [parts.unity_of_collected hunity] at hu
      obtain ⟨b, hb, rfl⟩ := List.mem_map.1 hu
      obtain ⟨src, hsrc, rfl, -⟩ := exists_source_of_mem_members hb hp
      exact hnamed rfl src hsrc hp hsame
  · cases List.mem_singleton.1 hp
    cases hunity : target.unity with
    | false =>
      rw [parts.compiles_of_apart hunity] at hc
      obtain ⟨src, hsrc, rfl⟩ := List.mem_map.1 hc
      exact .inr (hnamed rfl src hsrc hp hsame)
    | true =>
      rw [parts.compiles_of_collected hunity] at hc
      obtain ⟨u, hu, rfl⟩ := List.mem_map.1 hc
      have hut := hown (hsteps.1 u hu) hsame
      exact .inl ⟨hut ▸ hsteps.1 u hu, hut ▸ rfl⟩
  · obtain ⟨-, hisFinal⟩ := output_of_finalStep hfinal
    rw [last, Step.mem_inputs_iff, Step.objects_withObjects hisFinal,
      Step.otherInputs_withObjects] at hp
    rcases hp with hobject | hother
    · obtain ⟨c, hc, rfl⟩ := List.mem_map.1 hobject
      have hct := hown (hsteps.2.1 c hc) hsame
      refine .inl ⟨hct ▸ hsteps.2.1 c hc, ?_⟩
      rw [hct, last, Step.level_withObjects, Step.level_eq_two_iff.2 hisFinal]
      rfl
    · obtain ⟨template, htemplate, hexpand⟩ := exists_template_of_mem_otherInputs hfinal hother _
      refine .inr ⟨template, htemplate, p.text, hexpand, ?_, hsame⟩
      rwa [last, Step.otherInputs_withObjects]

end Parts

end Expansion

/-! ## Chains of dependencies -/

namespace BuildPlan

variable {ctx : BuildContext} {targets : List Target} {plan : BuildPlan} {s t : Step}

/-- Whether a step of a plan reads what another produces. -/
def DependsOn (plan : BuildPlan) (s t : Step) : Prop :=
  s ∈ plan.steps ∧ t ∈ plan.steps ∧ ∃ p ∈ s.inputs, p.same t.output = true

instance (s t : Step) : Decidable (plan.DependsOn s t) :=
  inferInstanceAs (Decidable (_ ∧ _ ∧ ∃ p ∈ s.inputs, p.same t.output = true))

/-- Whether no chain of dependencies leads from a step back to itself. -/
def IsAcyclic (plan : BuildPlan) : Prop := ∀ s, ¬ Relation.TransGen plan.DependsOn s s

/-- Whether a step of a plan that produces an artifact depends on an artifact. -/
def LinksTo (plan : BuildPlan) (s t : Step) : Prop :=
  s ∈ plan.steps ∧ t ∈ plan.steps ∧ s.isFinal = true ∧ t.isFinal = true ∧
    ∃ p ∈ s.otherInputs, p.same t.output = true

instance (s t : Step) : Decidable (plan.LinksTo s t) :=
  inferInstanceAs (Decidable (_ ∧ _ ∧ _ ∧ _ ∧ ∃ p ∈ s.otherInputs, p.same t.output = true))

theorem LinksTo.dependsOn (h : plan.LinksTo s t) : plan.DependsOn s t := by
  obtain ⟨hs, ht, -, -, p, hp, hsame⟩ := h
  exact ⟨hs, ht, p, Step.mem_inputs_iff.2 (.inr hp), hsame⟩

/-- Whether a target names what `t` produces as something that a step `s` of its expansion reads. -/
def NamedFor (ctx : BuildContext) (targets : List Target) (s t : Step) : Prop :=
  ∃ target ∈ targets, ∃ planned, expandTarget ctx target = .ok planned ∧ s ∈ planned.steps ∧
    target.Names ctx s t

/-- Whether `s` and `t` are steps of one target and `s` is one level above `t`. -/
def LeadsDown (plan : BuildPlan) (s t : Step) : Prop :=
  ∃ planned ∈ plan.targets, s ∈ planned.steps ∧ t ∈ planned.steps ∧ s.level = t.level + 1

/-- A dependency leads down in the expansion of a target, or is on a file that a target names. -/
theorem leadsDown_or_namedFor (h : ofTargets ctx targets = .ok plan) (hst : plan.DependsOn s t) :
    plan.LeadsDown s t ∨ NamedFor ctx targets s t := by
  obtain ⟨hmap, hd⟩ := ofTargets_eq_ok_iff.1 h
  obtain ⟨hs, ht, p, hp, hsame⟩ := hst
  obtain ⟨planned, hplanned, hs⟩ := List.mem_flatMap.1 hs
  obtain ⟨target, htarget, hexpand⟩ := exists_of_mem_of_map_ok hmap hplanned
  obtain ⟨parts, hparts, rfl⟩ := expandTarget_eq_ok_iff.1 hexpand
  have hsub : ∀ u ∈ (parts.arrange ctx target).steps, u ∈ plan.steps :=
    fun u hu => List.mem_flatMap.2 ⟨_, hplanned, hu⟩
  rcases Expansion.Parts.level_or_names hparts hd hsub ht s hs p hp hsame with
    ⟨ht', hlevel⟩ | hnames
  · exact .inl ⟨_, hplanned, hs, ht', hlevel⟩
  · exact .inr ⟨target, htarget, _, hexpand, hs, hnames⟩

/-- A chain of dependencies ends lower than it starts, unless some dependency on it is on a file
that a target names and leads to a step that is not lower. -/
theorem exists_named_or_level_lt (h : ofTargets ctx targets = .ok plan)
    (hchain : Relation.TransGen plan.DependsOn s t) :
    (∃ a b, Relation.ReflTransGen plan.DependsOn s a ∧ plan.DependsOn a b ∧ a.level ≤ b.level ∧
      NamedFor ctx targets a b ∧ Relation.ReflTransGen plan.DependsOn b t) ∨ t.level < s.level := by
  have hstep : ∀ {a b}, plan.DependsOn a b →
      (a.level ≤ b.level ∧ NamedFor ctx targets a b) ∨ b.level < a.level := by
    intro a b hab
    rcases leadsDown_or_namedFor h hab with ⟨_, -, -, -, hlevel⟩ | hnamed
    · exact .inr (by omega)
    · exact (Nat.lt_or_ge b.level a.level).elim .inr fun hle => .inl ⟨hle, hnamed⟩
  induction hchain with
  | @single b hsb =>
    rcases hstep hsb with ⟨hle, hnamed⟩ | hlt
    · exact .inl ⟨s, b, .refl, hsb, hle, hnamed, .refl⟩
    · exact .inr hlt
  | @tail b c hchain hbc ih =>
    rcases ih with ⟨a, b', hsa, hab, hle, hnamed, hb⟩ | hlt
    · exact .inl ⟨a, b', hsa, hab, hle, hnamed, hb.tail hbc⟩
    · rcases hstep hbc with ⟨hle, hnamed⟩ | hlt'
      · exact .inl ⟨b, c, hchain.to_reflTransGen, hbc, hle, hnamed, .refl⟩
      · exact .inr (by omega)

/-! ## Sources that are not generated -/

/-- Whether no target names a file that the plan produces as a source. -/
def SourcesAreGiven (ctx : BuildContext) (targets : List Target) (plan : BuildPlan) : Prop :=
  ∀ target ∈ targets, ∀ template ∈ target.sources, ∀ path,
    Template.expand ctx.bindings template = .ok path →
      ∀ t ∈ plan.steps, Path.same ⟨path⟩ t.output = false

/-- Then only steps that produce artifacts depend on files that a target names. -/
theorem isFinal_of_namedFor (hgiven : SourcesAreGiven ctx targets plan)
    (ht : t ∈ plan.steps) (h : NamedFor ctx targets s t) :
    s.isFinal = true ∧ ∃ p ∈ s.otherInputs, p.same t.output = true := by
  obtain ⟨target, htarget, planned, -, -, template, htemplate, path, hexpand, hmem, hsame⟩ := h
  have hsource : template ∉ target.sources := fun hsource => by
    rw [hgiven target htarget template hsource path hexpand t ht] at hsame
    cases hsame
  cases s with
  | unity s | compile s => exact absurd htemplate hsource
  | link s | archive s => exact ⟨rfl, _, hmem, hsame⟩

/-- Below the steps that produce artifacts, all chains of dependencies lead down. -/
theorem level_lt_of_transGen (h : ofTargets ctx targets = .ok plan)
    (hgiven : SourcesAreGiven ctx targets plan) (hs : s.level < 2)
    (hchain : Relation.TransGen plan.DependsOn s t) : t.level < s.level := by
  have hstep : ∀ {a b}, plan.DependsOn a b → a.level < 2 → b.level < a.level := by
    intro a b hab ha
    rcases leadsDown_or_namedFor h hab with ⟨_, -, -, -, hlevel⟩ | hnamed
    · omega
    · have := Step.level_eq_two_iff.2 (isFinal_of_namedFor hgiven hab.2.1 hnamed).1
      omega
  induction hchain with
  | single hsb => exact hstep hsb hs
  | tail _ hbc ih => exact Nat.lt_trans (hstep hbc (Nat.lt_trans ih hs)) ih

/-- What depends on the step that produces an artifact is one that names the artifact. -/
theorem linksTo_of_dependsOn (h : ofTargets ctx targets = .ok plan)
    (hgiven : SourcesAreGiven ctx targets plan) (ht : t.level = 2) (hst : plan.DependsOn s t) :
    plan.LinksTo s t := by
  rcases leadsDown_or_namedFor h hst with ⟨_, -, -, -, hlevel⟩ | hnamed
  · have := s.level_le
    omega
  · obtain ⟨hs, hp⟩ := isFinal_of_namedFor hgiven hst.2.1 hnamed
    exact ⟨hst.1, hst.2.1, hs, Step.level_eq_two_iff.1 ht, hp⟩

/-- A chain of dependencies on the step that produces an artifact is one of artifacts. -/
theorem linksTo_of_transGen (h : ofTargets ctx targets = .ok plan)
    (hgiven : SourcesAreGiven ctx targets plan) (ht : t.level = 2)
    (hchain : Relation.TransGen plan.DependsOn s t) : Relation.TransGen plan.LinksTo s t := by
  suffices s.level = 2 ∧ Relation.TransGen plan.LinksTo s t from this.2
  induction hchain using Relation.TransGen.head_induction_on with
  | single hat =>
    have hlink := linksTo_of_dependsOn h hgiven ht hat
    exact ⟨Step.level_eq_two_iff.2 hlink.2.2.1, .single hlink⟩
  | head hab _ ih =>
    have hlink := linksTo_of_dependsOn h hgiven ih.1 hab
    exact ⟨Step.level_eq_two_iff.2 hlink.2.2.1, .head hlink ih.2⟩

/-- A plan whose sources are given is acyclic when its artifacts are. -/
theorem isAcyclic_iff (h : ofTargets ctx targets = .ok plan)
    (hgiven : SourcesAreGiven ctx targets plan) :
    plan.IsAcyclic ↔ ∀ s, ¬ Relation.TransGen plan.LinksTo s s := by
  refine forall_congr' fun s => not_congr ⟨fun hchain => ?_, fun hchain => ?_⟩
  · have hlevel : s.level = 2 := by
      by_contra hne
      have hlt : s.level < 2 := Nat.lt_of_le_of_ne s.level_le hne
      exact absurd (level_lt_of_transGen h hgiven hlt hchain) (Nat.lt_irrefl _)
    exact linksTo_of_transGen h hgiven hlevel hchain
  · exact Relation.TransGen.mono (fun _ _ => LinksTo.dependsOn) _ _ hchain

/-! ## Plans -/

/-- **Dependencies lead down, unless a target names a generated file.** A dependency between steps
of a plan leads down by one level in the expansion of a target, or is on a file that a target names
as a source or for linking. So on every chain from a step back to itself there is one that a target
names and that does not lead down; and when no source is a generated file, all chains that lead back
are of artifacts that name each other for linking. -/
theorem dependsOn_spec (h : ofTargets ctx targets = .ok plan) :
    (∀ s t, plan.DependsOn s t → plan.LeadsDown s t ∨ NamedFor ctx targets s t) ∧
    (∀ s, Relation.TransGen plan.DependsOn s s →
      ∃ a b, Relation.ReflTransGen plan.DependsOn s a ∧ plan.DependsOn a b ∧ a.level ≤ b.level ∧
        NamedFor ctx targets a b ∧ Relation.ReflTransGen plan.DependsOn b s) ∧
    (SourcesAreGiven ctx targets plan →
      (plan.IsAcyclic ↔ ∀ s, ¬ Relation.TransGen plan.LinksTo s s)) := by
  refine ⟨fun _ _ => leadsDown_or_namedFor h, fun s hchain => ?_, isAcyclic_iff h⟩
  rcases exists_named_or_level_lt h hchain with hnamed | hlt
  · exact hnamed
  · exact absurd hlt (Nat.lt_irrefl _)

/-- A library and an executable that names it for linking have an acyclic plan. -/
theorem isAcyclic_of_library :
    let z := Target.ofSettings "z" .staticLib "libz.a" ["z.c"] {}
    let app := Target.ofSettings "app" .exe "app" ["a.c"] { linkDeps := some ["build/libz.a"] }
    ∃ plan, ofTargets .usual [z, app] = .ok plan ∧ plan.IsAcyclic := by
  intro z app
  -- No two dependencies between artifacts follow one another, so no chain of them leads back.
  have hcheck : (ofTargets .usual [z, app]).map (fun plan => decide (
      (∀ t ∈ plan.steps, ∀ path ∈ ["z.c", "a.c"], Path.same ⟨path⟩ t.output = false) ∧
        ∀ s ∈ plan.steps, ∀ t ∈ plan.steps, ∀ u ∈ plan.steps,
          plan.LinksTo s t → ¬ plan.LinksTo t u)) = .ok true := by
    decide +kernel
  obtain ⟨plan, hplan, hcheck⟩ := map_eq_ok_iff.1 hcheck
  obtain ⟨hsources, hlinks⟩ := of_decide_eq_true hcheck
  have hgiven : SourcesAreGiven .usual [z, app] plan := by
    intro target htarget template htemplate path hpath t ht
    have hexpand : ∀ template ∈ ["z.c", "a.c"],
        Template.expand (.ofList []) template = .ok template := by
      decide +kernel
    have hmem : template ∈ ["z.c", "a.c"] := by
      have hnames : [z, app].flatMap (·.sources) = ["z.c", "a.c"] := rfl
      exact hnames ▸ List.mem_flatMap.2 ⟨target, htarget, htemplate⟩
    cases (hexpand template hmem).symm.trans hpath
    exact hsources t ht template hmem
  refine ⟨plan, hplan, ((dependsOn_spec hplan).2.2 hgiven).2 fun s hchain => ?_⟩
  obtain ⟨t, hst, -⟩ := Relation.TransGen.head'_iff.1 hchain
  obtain ⟨r, -, hrs⟩ := Relation.TransGen.tail'_iff.1 hchain
  exact hlinks r hrs.1 s hst.1 t hst.2.1 hrs hst

/-- An executable that names itself for linking, and one that is a source of itself, have plans in
which a chain of dependencies leads back. -/
theorem not_isAcyclic_of_named_artifact :
    (∃ plan, ofTargets .usual
        [.ofSettings "app" .exe "app" ["a.c"] { linkDeps := some ["build/app"] }] = .ok plan ∧
      ¬ plan.IsAcyclic) ∧
    ∃ plan, ofTargets .usual [.executable "app" "a.c" "build/a.c"] = .ok plan ∧
      ¬ plan.IsAcyclic := by
  have hcyclic : ∀ targets : List Target,
      (ofTargets .usual targets).map (fun plan => decide (∃ s ∈ plan.steps, ∃ t ∈ plan.steps,
        plan.DependsOn s t ∧ plan.DependsOn t s)) = .ok true →
      ∃ plan, ofTargets .usual targets = .ok plan ∧ ¬ plan.IsAcyclic := by
    intro targets hback
    obtain ⟨plan, hplan, hcheck⟩ := map_eq_ok_iff.1 hback
    obtain ⟨s, -, t, -, hst, hts⟩ := of_decide_eq_true hcheck
    exact ⟨plan, hplan, fun hacyclic => hacyclic s (.tail (.single hst) hts)⟩
  exact ⟨hcyclic _ (by decide +kernel), hcyclic _ (by decide +kernel)⟩

end BuildPlan

end NinjaGen
