import NinjaGen.Config
import NinjaGen.Proofs.Path.Spelling
import NinjaGen.Proofs.Plan.BuildRoot

/-!
# Places below the build root

A build root comes from a configuration and is spelled plainly, whatever the configuration says. So
are all paths that are moved below it, and moving them again changes nothing.

* `BuildConfig.isPlain_buildRoot`: the build root of a run is plain.
* `BuildContext.objectPath_eq`: the object of a source below the build root stands beside it.
* `Expansion.isPlain_unity`: unity sources are plain.
* `BuildContext.underBuildRoot_spec` puts this together, for all paths and for the unity sources of
  a target.
-/

namespace NinjaGen

/-- **The build root of a run is plain**, however the configuration spells it. -/
theorem BuildConfig.isPlain_buildRoot (b : BuildConfig) : b.options.buildRoot.IsPlain := by
  unfold options
  cases b.buildDir with
  | none => exact (by decide +kernel : (Path.mk "build").withoutCurrent = ⟨"build"⟩)
  | some dir => exact dir.isPlain_withoutCurrent

namespace BuildContext

variable {ctx : BuildContext} {p : Path}

/-- The object of a source that is below the build root already is the source, plainly spelled, with
the extension of objects behind it. -/
theorem objectPath_eq (h : p.plain.startsWith ctx.buildRoot = true) :
    ctx.objectPath p = p.plain.appendText ctx.profile.objectExtension := by
  have hunder : ctx.underBuildRoot p = p.plain := by
    rw [← Path.withoutCurrent_eq] at h ⊢
    simp only [underBuildRoot, Path.under]
    exact if_pos h
  rw [objectPath, hunder]

end BuildContext

namespace Expansion

variable {ctx : BuildContext} {target : Target} {parts : Parts}

/-- The unity sources of a target are plain. -/
theorem isPlain_unity (hroot : ctx.buildRoot.IsPlain) (h : Expansion.parts ctx target = .ok parts)
    {u : UnityStep} (hu : u ∈ parts.unity ctx target) : u.output.IsPlain := by
  obtain ⟨⟨output, -, houtput⟩, -⟩ := parts_eq_ok_iff.1 h
  have hplain : parts.output.IsPlain := houtput ▸ hroot.under ⟨output⟩
  cases hunity : target.unity with
  | false =>
    rw [parts.unity_of_apart hunity] at hu
    cases hu
  | true =>
    rw [parts.unity_of_collected hunity] at hu
    obtain ⟨b, -, rfl⟩ := List.mem_map.1 hu
    have hdir : (parts.output.appendText ".unity").IsPlain :=
      hplain.appendText (by decide) (by decide)
    exact hdir.join_normal b.isStep_fileName

/-- What is compiled of a unity source below the build root stands beside it. -/
theorem exists_compile_of_unity (hroot : ctx.buildRoot.IsPlain)
    (h : Expansion.parts ctx target = .ok parts) {u : UnityStep} (hu : u ∈ parts.unity ctx target)
    (hstart : u.output.startsWith ctx.buildRoot = true) :
    ∃ c ∈ parts.compiles ctx target, c.source = u.output ∧
      c.output = u.output.appendText ctx.profile.objectExtension := by
  have hplain : u.output.plain = u.output := by
    rw [← Path.withoutCurrent_eq]
    exact isPlain_unity hroot h hu
  cases hunity : target.unity with
  | false =>
    rw [parts.unity_of_apart hunity] at hu
    cases hu
  | true =>
    rw [parts.compiles_of_collected hunity]
    refine ⟨_, List.mem_map_of_mem hu, rfl, ?_⟩
    have hobject : ctx.objectPath u.output = _ := BuildContext.objectPath_eq (by rwa [hplain])
    rwa [hplain] at hobject

end Expansion

/-- **Moving below the build root.** With the build root of any configuration, a path that is moved
below it starts with it and stays where it is when it is moved again; its spelling does not matter;
the object of what is below the build root stands beside it, and so does the object of every unity
source there. -/
theorem BuildContext.underBuildRoot_spec (profile : ToolchainProfile) (bindings : Bindings)
    (b : BuildConfig) :
    let ctx : BuildContext := ⟨profile, bindings, b.options⟩
    (∀ p, (ctx.underBuildRoot p).startsWith ctx.buildRoot = true ∧
      ctx.underBuildRoot (ctx.underBuildRoot p) = ctx.underBuildRoot p) ∧
    (∀ p q : Path, p.Respells q → ctx.underBuildRoot p = ctx.underBuildRoot q) ∧
    (∀ p : Path, p.plain.startsWith ctx.buildRoot = true →
      ctx.objectPath p = ⟨p.plain.text ++ profile.objectExtension⟩) ∧
    ∀ target planned, expandTarget ctx target = .ok planned →
      ∀ u, .unity u ∈ planned.steps → u.output.startsWith ctx.buildRoot = true →
        ∃ c, .compile c ∈ planned.steps ∧ c.source = u.output ∧
          c.output = ⟨u.output.text ++ profile.objectExtension⟩ := by
  intro ctx
  have hroot : ctx.buildRoot.IsPlain := b.isPlain_buildRoot
  refine ⟨fun p => ⟨p.startsWith_under _, Path.under_under hroot p⟩,
    fun p q h => h.under_eq _, fun p h => objectPath_eq h, ?_⟩
  intro target planned hplanned u hu hstart
  obtain ⟨parts, hparts, rfl⟩ := expandTarget_eq_ok_iff.1 hplanned
  have hfinal := (Expansion.output_of_finalStep (Expansion.parts_eq_ok_iff.1 hparts).2.2.2).2
  rw [Expansion.Parts.unity_mem_steps_iff hfinal] at hu
  obtain ⟨c, hc, hsource, houtput⟩ := Expansion.exists_compile_of_unity hroot hparts hu hstart
  exact ⟨c, (Expansion.Parts.compile_mem_steps_iff hfinal).2 hc, hsource, houtput⟩

/-- An absolute build root: two spellings of a path that leads up, a source that is below the build
root already, and the unity source of a target. -/
theorem BuildContext.underBuildRoot_spec_absolute :
    let b : BuildConfig := { buildDir := some ⟨"/out/./x/"⟩ }
    let ctx : BuildContext := ⟨.ofPlatform .gcc, .ofList [], b.options⟩
    let target := { Target.executable "app" "bin//app" "a.c" with unity := true }
    let u : UnityStep := ⟨⟨"/out/x/bin/app.unity/unity_c_0.c"⟩, [⟨"a.c"⟩], .c, "app"⟩
    (Path.Respells ⟨"./a//b/.."⟩ ⟨"a/b/../."⟩ ∧
      ctx.underBuildRoot ⟨"./a//b/.."⟩ = ctx.underBuildRoot ⟨"a/b/../."⟩) ∧
    ((Path.plain ⟨"/out//x/./a.c"⟩).startsWith ctx.buildRoot = true ∧
      ctx.objectPath ⟨"/out//x/./a.c"⟩ = ⟨"/out/x/a.c.o"⟩) ∧
    ∃ planned, expandTarget ctx target = .ok planned ∧ .unity u ∈ planned.steps ∧
      u.output.startsWith ctx.buildRoot = true ∧
      ∃ c, .compile c ∈ planned.steps ∧ c.source = u.output ∧
        c.output = ⟨"/out/x/bin/app.unity/unity_c_0.c.o"⟩ := by
  intro b ctx target u
  obtain ⟨-, hspelling, hobject, hunity⟩ :=
    underBuildRoot_spec (.ofPlatform .gcc) (.ofList []) { buildDir := some ⟨"/out/./x/"⟩ }
  have hrespells : Path.Respells ⟨"./a//b/.."⟩ ⟨"a/b/../."⟩ := by decide +kernel
  have hbelow : (Path.plain ⟨"/out//x/./a.c"⟩).startsWith ctx.buildRoot = true := by
    decide +kernel
  have hstart : u.output.startsWith ctx.buildRoot = true := by decide +kernel
  have hplanned : (match expandTarget ctx target with
      | .ok planned => decide (.unity u ∈ planned.steps)
      | .error _ => false) = true := by decide +kernel
  split at hplanned
  next planned hok =>
    have hu := of_decide_eq_true hplanned
    exact ⟨⟨hrespells, hspelling _ _ hrespells⟩, ⟨hbelow, hobject _ hbelow⟩,
      planned, hok, hu, hstart, hunity target planned hok u hu hstart⟩
  next => cases hplanned

end NinjaGen
