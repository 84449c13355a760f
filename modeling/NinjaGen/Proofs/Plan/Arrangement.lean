import NinjaGen.Proofs.Plan.Outputs
import NinjaGen.Proofs.Plan.Parts

/-!
# The steps of an expansion

The steps of an expanded target come in a fixed order: the unity sources if it wants any, the
compilations, and the step that produces the artifact. Each is made of the expanded settings of the
target.

* `IsCompilation` and `IsFinal` say what a compilation and the last step are made of.
* `IsArrangement` says how the steps of a target are arranged and how they belong together
  (`Expansion.Parts.isArrangement`).
* `isArrangement_of_expandTarget`: every expansion is arranged so.
-/

namespace NinjaGen

variable {ctx : BuildContext} {target : Target}

/-! ## What the steps are made of -/

/-- The flags of a target for a language, before placeholders are replaced. -/
def Target.languageFlags (t : Target) : Language → List String
  | .c => t.cflags
  | .cxx => t.cxxflags

/-- Whether the step compiles its source as the target says. -/
structure IsCompilation (ctx : BuildContext) (target : Target) (c : CompileStep) : Prop where
  output : c.output = ctx.objectPath c.source
  /-- The flags of the build type come first and then those for the language. -/
  flags : ∃ flags, Template.expandAll ctx.bindings (target.languageFlags c.lang) = .ok flags ∧
    c.flags = ctx.buildTypeFlags ++ flags
  defines : Template.expandAll ctx.bindings target.defines = .ok c.defines
  /-- The project root comes last, unless it is among the directories. -/
  includeDirs : ∃ dirs, Template.expandAll ctx.bindings target.includeDirs = .ok dirs ∧
    c.includeDirs = if ∃ d ∈ dirs, Path.same ⟨d⟩ ⟨"."⟩ = true then dirs else dirs ++ ["."]

/-- Whether the step makes the artifact of the objects as the target says. -/
inductive IsFinal (ctx : BuildContext) (target : Target) (output : Path) (objects : List Path) :
    Step → Prop
  | archive (h : target.kind = .staticLib) :
      IsFinal ctx target output objects (.archive ⟨objects, output, target.name⟩)
  /-- The flag for shared libraries comes behind all others. -/
  | link {libs linkDeps ldflags modeFlags : List String} {mode : LinkMode}
      (h : target.kind = .exe ∧ mode = .executable ∧ modeFlags = [] ∨
        target.kind = .sharedLib ∧ mode = .sharedLib ∧ modeFlags = [ctx.profile.sharedFlag])
      (hlibs : Template.expandAll ctx.bindings target.libs = .ok libs)
      (hdeps : Template.expandAll ctx.bindings target.linkDeps = .ok linkDeps)
      (hflags : Template.expandAll ctx.bindings target.ldflags = .ok ldflags) :
      IsFinal ctx target output objects (.link
        { objects := objects
          output := output
          implicitInputs := linkDeps.map Path.mk
          libs := libs
          flags := ldflags ++ modeFlags
          mode := mode
          target := target.name })

/-- Whether a target with its steps is arranged of unity sources, compilations and a last step. -/
structure IsArrangement (ctx : BuildContext) (target : Target) (units : List UnityStep)
    (compiles : List CompileStep) (final : Step) (planned : PlannedTarget) : Prop where
  name : planned.name = target.name
  kind : planned.kind = target.kind
  output : ∃ text, Template.expand ctx.bindings target.output = .ok text ∧
    planned.output = ctx.underBuildRoot ⟨text⟩
  steps : planned.steps = units.map .unity ++ compiles.map .compile ++ [final]
  target_eq : ∀ s ∈ planned.steps, s.target = target.name
  /-- Something is compiled. -/
  compiles_ne_nil : compiles ≠ []
  /-- The sources are compiled in order if they are compiled one by one. -/
  apart : target.unity = false → units = [] ∧
    Template.expandAll ctx.bindings target.sources = .ok (compiles.map (·.source.text)) ∧
    ∀ c ∈ compiles, Language.ofPath? c.source = some c.lang
  /-- The unity sources are compiled in order if there are any. -/
  collected : target.unity = true →
    compiles.map (fun c => (c.source, c.lang)) = units.map fun u => (u.output, u.lang)
  compilation : ∀ c ∈ compiles, IsCompilation ctx target c
  /-- The artifact is made of the objects in order. -/
  isFinal : IsFinal ctx target planned.output (compiles.map (·.output)) final

/-! ## The steps of the parts -/

namespace Expansion

theorem withProjectRoot_eq (dirs : List String) :
    withProjectRoot dirs =
      if ∃ d ∈ dirs, Path.same ⟨d⟩ ⟨"."⟩ = true then dirs else dirs ++ ["."] := by
  simp only [withProjectRoot, List.any_eq_true]

theorem compileSettings_eq_ok_iff {settings : CompileSettings} :
    compileSettings ctx target = .ok settings ↔
      (∃ dirs, Template.expandAll ctx.bindings target.includeDirs = .ok dirs ∧
        settings.includeDirs = withProjectRoot dirs) ∧
      Template.expandAll ctx.bindings target.defines = .ok settings.defines ∧
      Template.expandAll ctx.bindings target.cflags = .ok settings.cflags ∧
      Template.expandAll ctx.bindings target.cxxflags = .ok settings.cxxflags := by
  simp only [compileSettings, bind_eq_ok_iff]
  constructor
  · rintro ⟨dirs, hdirs, defines, hdefines, cflags, hcflags, cxxflags, hcxxflags, h⟩
    cases h
    exact ⟨⟨dirs, hdirs, rfl⟩, hdefines, hcflags, hcxxflags⟩
  · rintro ⟨⟨dirs, hdirs, heq⟩, hdefines, hcflags, hcxxflags⟩
    refine ⟨dirs, hdirs, _, hdefines, _, hcflags, _, hcxxflags, ?_⟩
    rw [← heq]
    rfl

/-- A source is compiled as the target says. -/
theorem isCompilation_compileStep {settings : CompileSettings}
    (h : compileSettings ctx target = .ok settings) (s : SourceFile) :
    IsCompilation ctx target (compileStep ctx target settings s) := by
  obtain ⟨⟨dirs, hdirs, heq⟩, hdefines, hcflags, hcxxflags⟩ := compileSettings_eq_ok_iff.1 h
  refine ⟨rfl, ⟨settings.flags s.lang, ?_, rfl⟩, hdefines, dirs, hdirs, ?_⟩
  · change Template.expandAll ctx.bindings (target.languageFlags s.lang) = _
    cases s.lang with
    | c => exact hcflags
    | cxx => exact hcxxflags
  · exact heq.trans (withProjectRoot_eq dirs)

theorem isFinal_of_linkStep {output : Path} {objects : List Path} {mode : LinkMode}
    {s : LinkStep} (h : linkStep ctx target output objects mode = .ok s)
    (hmode : target.kind = .exe ∧ mode = .executable ∨
      target.kind = .sharedLib ∧ mode = .sharedLib) :
    IsFinal ctx target output objects (.link s) := by
  simp only [linkStep, bind_eq_ok_iff] at h
  obtain ⟨ldflags, hflags, linkDeps, hdeps, libs, hlibs, h⟩ := h
  cases h
  refine .link ?_ hlibs hdeps hflags
  rcases hmode with ⟨hkind, rfl⟩ | ⟨hkind, rfl⟩
  · exact .inl ⟨hkind, rfl, rfl⟩
  · exact .inr ⟨hkind, rfl, rfl⟩

/-- The last step is made as the target says. -/
theorem isFinal_of_finalStep {output : Path} {objects : List Path} {s : Step}
    (h : finalStep ctx target output objects = .ok s) :
    IsFinal ctx target output objects s := by
  unfold finalStep at h
  split at h
  next hkind =>
    cases h
    exact .archive hkind
  next hkind =>
    obtain ⟨link, hlink, rfl⟩ := map_eq_ok_iff.1 h
    exact isFinal_of_linkStep hlink (.inl ⟨hkind, rfl⟩)
  next hkind =>
    obtain ⟨link, hlink, rfl⟩ := map_eq_ok_iff.1 h
    exact isFinal_of_linkStep hlink (.inr ⟨hkind, rfl⟩)

/-- The paths of the sources are what their templates mean. -/
theorem expandAll_sources {ss : List SourceFile} (h : sources ctx target = .ok ss) :
    Template.expandAll ctx.bindings target.sources = .ok (ss.map (·.path.text)) := by
  obtain ⟨-, hmap, -⟩ := sources_eq_ok_iff.1 h
  rw [Template.expandAll, mapM_eq_ok_iff, List.map_map, List.map_eq_flatMap, List.map_eq_flatMap]
  refine (flatMap_eq_of_map_ok hmap fun template s hs => ?_).symm
  rw [(source_eq_ok_iff.1 hs).1]
  rfl

theorem ofPath?_of_mem_sources {ss : List SourceFile} (h : sources ctx target = .ok ss)
    {s : SourceFile} (hs : s ∈ ss) : Language.ofPath? s.path = some s.lang := by
  obtain ⟨-, hmap, -⟩ := sources_eq_ok_iff.1 h
  obtain ⟨template, -, hsource⟩ := exists_of_mem_of_map_ok hmap hs
  exact (source_eq_ok_iff.1 hsource).2.1

namespace Parts

variable {parts : Parts}

theorem batches_ne_nil {ss : List SourceFile} (h : ss ≠ []) (capacity : Nat) :
    batches capacity ss ≠ [] := by
  obtain ⟨s, hs⟩ := List.exists_mem_of_ne_nil ss h
  obtain ⟨b, hb, -⟩ := exists_mem_batches hs capacity
  exact List.ne_nil_of_mem hb

theorem compiles_ne_nil (h : parts.sources ≠ []) : parts.compiles ctx target ≠ [] := by
  cases hunity : target.unity with
  | false =>
    rw [parts.compiles_of_apart hunity, ne_eq, List.map_eq_nil_iff]
    exact h
  | true =>
    rw [parts.compiles_of_collected hunity, parts.unity_of_collected hunity, ne_eq,
      List.map_eq_nil_iff, List.map_eq_nil_iff]
    exact batches_ne_nil h _

theorem isCompilation (h : compileSettings ctx target = .ok parts.settings) {c : CompileStep}
    (hc : c ∈ parts.compiles ctx target) : IsCompilation ctx target c := by
  obtain ⟨s, -, rfl⟩ := List.mem_map.1 hc
  exact isCompilation_compileStep h s

theorem target_eq_of_isFinal {output : Path} {objects : List Path} {s : Step}
    (h : IsFinal ctx target output objects s) : s.target = target.name := by
  cases h <;> rfl

theorem target_eq_of_mem_unity {u : UnityStep} (hu : u ∈ parts.unity ctx target) :
    u.target = target.name := by
  cases hunity : target.unity with
  | false =>
    rw [parts.unity_of_apart hunity] at hu
    cases hu
  | true =>
    rw [parts.unity_of_collected hunity] at hu
    obtain ⟨b, -, rfl⟩ := List.mem_map.1 hu
    rfl

/-- **The steps of a target that can be read** are arranged as they should be. -/
theorem isArrangement (h : Expansion.parts ctx target = .ok parts) :
    IsArrangement ctx target (parts.unity ctx target) (parts.compiles ctx target)
      (parts.last ctx target) (parts.arrange ctx target) := by
  obtain ⟨houtput, hsources, hsettings, hfinal⟩ := parts_eq_ok_iff.1 h
  have hlast : IsFinal ctx target parts.output ((parts.compiles ctx target).map (·.output))
      (parts.last ctx target) := by
    refine isFinal_of_finalStep ?_
    rw [finalStep_eq, hfinal]
    rfl
  have hcompile : ∀ c ∈ parts.compiles ctx target, c.target = target.name := by
    intro c hc
    obtain ⟨s, -, rfl⟩ := List.mem_map.1 hc
    rfl
  refine
    { name := rfl
      kind := rfl
      output := houtput
      steps := rfl
      target_eq := (parts.forall_mem_steps_iff ctx target).2
        ⟨fun _ => target_eq_of_mem_unity, hcompile, target_eq_of_isFinal hlast⟩
      compiles_ne_nil := compiles_ne_nil (ne_nil_of_sources hsources)
      apart := fun hunity => ?_
      collected := fun hunity => ?_
      compilation := fun _ => isCompilation hsettings
      isFinal := hlast }
  · rw [parts.compiles_of_apart hunity, List.map_map]
    refine ⟨parts.unity_of_apart hunity, expandAll_sources hsources, fun c hc => ?_⟩
    obtain ⟨s, hs, rfl⟩ := List.mem_map.1 hc
    exact ofPath?_of_mem_sources hsources hs
  · rw [parts.compiles_of_collected hunity, List.map_map]
    rfl

end Parts

end Expansion

/-! ## Every expansion -/

/-- **The steps of an expanded target** are unity sources, compilations and the step that produces
the artifact, each made of what the target says. -/
theorem isArrangement_of_expandTarget {planned : PlannedTarget}
    (h : expandTarget ctx target = .ok planned) :
    ∃ units compiles final, IsArrangement ctx target units compiles final planned := by
  obtain ⟨parts, hparts, rfl⟩ := expandTarget_eq_ok_iff.1 h
  exact ⟨_, _, _, Expansion.Parts.isArrangement hparts⟩

/-- A shared library whose sources, of both languages, are collected has two unity sources, which
are compiled and linked. -/
theorem isArrangement_of_shared_library :
    let z := Target.ofSettings "z" .sharedLib "lib/libz.so" ["a.c", "b.cpp", "c.c"]
      { unity := some true, ldflags := some ["-s"], includeDirs := some ["include"] }
    ∃ planned, expandTarget .usual z = .ok planned ∧ planned.steps.length = 5 ∧
      ∃ units compiles final, IsArrangement .usual z units compiles final planned := by
  intro z
  have hlength : (expandTarget .usual z).map (·.steps.length) = .ok 5 := by decide +kernel
  obtain ⟨planned, hplanned, hlength⟩ := map_eq_ok_iff.1 hlength
  exact ⟨planned, hplanned, hlength, isArrangement_of_expandTarget hplanned⟩

/-- The project root does not follow directories of headers that it is among. -/
theorem includeDirs_of_project_root :
    let dirs := ["include", "./"]
    let app := Target.ofSettings "app" .exe "app" ["a.c"] { includeDirs := some dirs }
    Template.expandAll BuildContext.usual.bindings dirs = .ok dirs ∧
      ∃ planned, expandTarget .usual app = .ok planned ∧
        ∃ c, .compile c ∈ planned.steps ∧ c.includeDirs ≠ dirs ++ ["."] := by
  intro dirs app
  let c : CompileStep :=
    { source := ⟨"a.c"⟩
      output := ⟨"build/a.c.o"⟩
      lang := .c
      flags := ["-g"]
      includeDirs := dirs
      defines := []
      target := "app" }
  have hhead : (expandTarget .usual app).map (·.steps.head?) = .ok (some (.compile c)) := by
    decide +kernel
  obtain ⟨planned, hplanned, hhead⟩ := map_eq_ok_iff.1 hhead
  exact ⟨by decide +kernel, planned, hplanned, c, List.mem_of_head? hhead, by decide⟩

end NinjaGen
