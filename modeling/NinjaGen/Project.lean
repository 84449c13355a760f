import NinjaGen.Clean
import NinjaGen.Descriptor
import NinjaGen.Generate

/-!
# Projects

A project is all that a run needs: its root, the merged configuration, and what follows from it.

* `Workspace` says where the project is and where the user's configuration.
* `Overrides` are the choices of a run, above all configuration.
* `Project.load` settles all choices; `Project.targets`, `Project.plan`, `Project.render`,
  `Project.generate` and `Project.clean` are what can be done with a project.
-/

namespace NinjaGen

/-- Where the files of a run are. -/
structure Workspace where
  /-- The project root. -/
  root : Path
  /-- The directory of the user's configuration, if there is one. -/
  home : Option Path
  deriving DecidableEq, Repr

namespace Workspace

/-- The user's configuration. -/
def userConfig (w : Workspace) : Option Path := w.home.map (·.join ⟨"config.toml"⟩)

/-- The configuration of the project. -/
def projectConfig (w : Workspace) : Path := (w.root.join ⟨".dockyard"⟩).join ⟨"config.toml"⟩

end Workspace

/-- The choices of a run. -/
structure Overrides where
  /-- Whether to build for release. -/
  release : Bool := false
  profile : Option Platform := none
  buildDir : Option Path := none
  /-- The generated file. -/
  output : Option Path := none
  unityBatchSize : Option Nat := none
  /-- Bindings above all others. -/
  vars : List (String × String) := []
  deriving DecidableEq, Repr

/-- The choices for a build with those of a run over them. -/
def Overrides.over (o : Overrides) (b : BuildConfig) : BuildConfig :=
  { b with
    buildDir := o.buildDir.or b.buildDir
    buildType := if o.release then some .release else b.buildType
    output := o.output.or b.output
    unityBatchSize := o.unityBatchSize.or b.unityBatchSize }

/-- All that a run needs. -/
structure Project where
  root : Path
  /-- The merged configuration, with the choices of the run. -/
  config : Config
  options : GenerateOptions
  profile : ToolchainProfile
  bindings : Bindings
  /-- The generated file. -/
  output : Path

namespace Project

/-- The project of a workspace. Bindings of the run are above those of the configuration, and those
above the ones that every run has. -/
def load (t : FileTree) (w : Workspace) (o : Overrides) : Except Failure Project := do
  let config ← loadConfig t w.userConfig w.projectConfig
  let config := { config with build := o.over config.build }
  let options := config.build.options
  if options.buildRoot.text = "" then .error .emptyBuildRoot
  else do
    let profile ← config.toolchain.toProfile o.profile
    pure
      { root := w.root
        config := config
        options := options
        profile := profile
        bindings := ((builtinBindings options profile).extend config.vars).setAll o.vars
        output := w.root.join config.build.outputPath }

/-- What the expansion of the targets depends on. -/
def context (p : Project) : BuildContext := ⟨p.profile, p.bindings, p.options⟩

/-- The build root below the project root. -/
def buildRoot (p : Project) : Path := p.root.join p.options.buildRoot

/-- The targets of the project. -/
def targets (p : Project) (t : FileTree) : Logged (List Target) :=
  discoverTargets t p.root p.options.buildRoot p.config.defaults p.bindings

/-- The plan of the project. -/
def plan (p : Project) (t : FileTree) : Logged BuildPlan := do
  let targets ← p.targets t
  .ofExcept ((BuildPlan.ofTargets p.context targets).mapError .generation)

/-- The text of the build file of the project. -/
def render (p : Project) (t : FileTree) : Logged String := do
  let targets ← p.targets t
  .ofExcept ((renderTargets p.context targets).mapError .generation)

/-- The tree with the build file of the project. -/
def generate (p : Project) (t : FileTree) : FileTree × Logged GenerateSummary :=
  let targets := p.targets t
  match targets.outcome with
  | .error e => (t, ⟨targets.notices, .error e⟩)
  | .ok found =>
    match NinjaGen.generate t p.context p.output found with
    | (t, .error e) => (t, ⟨targets.notices, .error (.generation e)⟩)
    | (t, .ok summary) => (t, ⟨targets.notices ++ [summary.notice], .ok summary⟩)

/-- The tree without what the project generates. -/
def clean (p : Project) (t : FileTree) : FileTree × Except Failure (List Path) :=
  NinjaGen.clean t p.root p.options.buildRoot p.output

end Project

end NinjaGen
