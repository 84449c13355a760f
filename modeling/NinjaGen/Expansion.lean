import NinjaGen.Layout
import NinjaGen.Step
import NinjaGen.Target
import NinjaGen.Template
import NinjaGen.Unity

/-!
# The expansion of a target

A target is expanded into its steps: unity sources if it wants them, compilations, and the step
that produces its artifact.

* `Expansion.sources` reads the sources of a target: each has to be a source that the toolchain
  can compile, and no two may share an object.
* `expandTarget` is the expansion; its errors arise in a fixed order: the output, the sources one
  by one, then the remaining settings list by list.
-/

namespace NinjaGen

/-- A target with the steps that build it. -/
structure PlannedTarget where
  name : String
  kind : TargetKind
  /-- The artifact. -/
  output : Path
  /-- The steps: unity sources, compilations, and the one that produces the artifact. -/
  steps : List Step
  deriving DecidableEq, Repr

namespace Expansion

/-! ## Sources -/

/-- The source that a template means, which has to be compilable. -/
def source (ctx : BuildContext) (template : String) : Except GenerationError SourceFile := do
  let path ← Template.expand ctx.bindings template
  match SourceFile.ofPath? ⟨path⟩ with
  | none => .error (.unrecognizedSource path)
  | some s =>
    let _ ← ctx.profile.compiler s.lang
    pure s

/-- The sources that templates mean, after sources whose objects have the components `seen`. A
source whose object is there already would be compiled twice. -/
def sourcesFrom (ctx : BuildContext) (target : String) (seen : List (List Component)) :
    List String → Except GenerationError (List SourceFile)
  | [] => .ok []
  | t :: r => do
    let s ← source ctx t
    let object := ctx.objectPath s.path
    if object.components ∈ seen then
      let step := CompileStep.wording s.path target
      .error (.duplicateOutput object.text step step)
    else
      let rest ← sourcesFrom ctx target (object.components :: seen) r
      pure (s :: rest)

/-- The sources of a target. -/
def sources (ctx : BuildContext) (target : Target) : Except GenerationError (List SourceFile) :=
  if target.sources = [] then .error (.emptyTarget target.name)
  else sourcesFrom ctx target.name [] target.sources

/-! ## Unity sources and compilations -/

/-- The unity steps of a target with that artifact; none if it does not want any. -/
def unitySteps (ctx : BuildContext) (target : Target) (output : Path) (sources : List SourceFile) :
    List UnityStep :=
  if target.unity then
    (batches ctx.options.unityBatchSize sources).map fun b =>
      { output := b.pathIn (output.appendText ".unity")
        members := b.members
        lang := b.lang
        target := target.name }
  else []

/-- What is compiled: the unity sources if the target wants them, and its sources otherwise. -/
def compiled (target : Target) (unity : List UnityStep) (sources : List SourceFile) :
    List SourceFile :=
  if target.unity then unity.map fun s => ⟨s.output, s.lang⟩ else sources

/-- The directories of headers with the project root among them. -/
def withProjectRoot (dirs : List String) : List String :=
  if dirs.any fun d => Path.same ⟨d⟩ ⟨"."⟩ then dirs else dirs ++ ["."]

/-- What the compilations of a target have in common. -/
structure CompileSettings where
  includeDirs : List String
  defines : List String
  cflags : List String
  cxxflags : List String
  deriving DecidableEq, Repr

/-- The settings for compiling, expanded list by list. -/
def compileSettings (ctx : BuildContext) (target : Target) :
    Except GenerationError CompileSettings := do
  let includeDirs ← Template.expandAll ctx.bindings target.includeDirs
  let defines ← Template.expandAll ctx.bindings target.defines
  let cflags ← Template.expandAll ctx.bindings target.cflags
  let cxxflags ← Template.expandAll ctx.bindings target.cxxflags
  pure ⟨withProjectRoot includeDirs, defines, cflags, cxxflags⟩

/-- The flags of a target for a language. -/
def CompileSettings.flags (s : CompileSettings) : Language → List String
  | .c => s.cflags
  | .cxx => s.cxxflags

/-- The compilation of a source. -/
def compileStep (ctx : BuildContext) (target : Target) (settings : CompileSettings)
    (source : SourceFile) : CompileStep where
  source := source.path
  output := ctx.objectPath source.path
  lang := source.lang
  flags := ctx.buildTypeFlags ++ settings.flags source.lang
  includeDirs := settings.includeDirs
  defines := settings.defines
  target := target.name

/-! ## The artifact -/

/-- The linking of the artifact. -/
def linkStep (ctx : BuildContext) (target : Target) (output : Path) (objects : List Path)
    (mode : LinkMode) : Except GenerationError LinkStep := do
  let flags ← Template.expandAll ctx.bindings target.ldflags
  let implicitInputs ← Template.expandAll ctx.bindings target.linkDeps
  let libs ← Template.expandAll ctx.bindings target.libs
  let modeFlags := match mode with
    | .executable => []
    | .sharedLib => [ctx.profile.sharedFlag]
  pure
    { objects := objects
      output := output
      implicitInputs := implicitInputs.map Path.mk
      libs := libs
      flags := flags ++ modeFlags
      mode := mode
      target := target.name }

/-- The step that produces the artifact. -/
def finalStep (ctx : BuildContext) (target : Target) (output : Path) (objects : List Path) :
    Except GenerationError Step :=
  match target.kind with
  | .staticLib => .ok (.archive ⟨objects, output, target.name⟩)
  | .exe => (linkStep ctx target output objects .executable).map .link
  | .sharedLib => (linkStep ctx target output objects .sharedLib).map .link

end Expansion

/-- The target with its steps. -/
def expandTarget (ctx : BuildContext) (target : Target) : Except GenerationError PlannedTarget := do
  let output ← Template.expand ctx.bindings target.output
  let output := ctx.underBuildRoot ⟨output⟩
  let sources ← Expansion.sources ctx target
  let unity := Expansion.unitySteps ctx target output sources
  let settings ← Expansion.compileSettings ctx target
  let compiles :=
    (Expansion.compiled target unity sources).map (Expansion.compileStep ctx target settings)
  let final ← Expansion.finalStep ctx target output (compiles.map (·.output))
  pure ⟨target.name, target.kind, output, unity.map .unity ++ compiles.map .compile ++ [final]⟩

end NinjaGen
