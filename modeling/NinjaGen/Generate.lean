import NinjaGen.Document
import NinjaGen.Failure

/-!
# Generating a build file

The whole text of a build file is there before anything is written, so an error in a target leaves
the file of an earlier run as it was.

* `builtinBindings` are the bindings that every run has.
* `generate` writes the build file for targets and says what it wrote. It fails as the text does
  (`generate_of_error`), with the file tree as it was.
-/

namespace NinjaGen

/-- The bindings that every run has: the build root under two names, the build type and the family
of compilers. -/
def builtinBindings (o : GenerateOptions) (t : ToolchainProfile) : Bindings :=
  .ofList
    [("build_dir", o.buildRoot.text),
      ("BUILD_DIR", o.buildRoot.text),
      ("build_type", o.buildType.name),
      ("profile", t.platform.name)]

/-- What a run has written. -/
structure GenerateSummary where
  /-- The generated file. -/
  output : Path
  /-- The number of targets. -/
  targets : Nat
  /-- The number of edges, without the one that covers all artifacts. -/
  steps : Nat
  /-- The size of the generated file. -/
  bytes : Nat
  deriving DecidableEq, Repr

/-- The notice about what a run has written. -/
def GenerateSummary.notice (s : GenerateSummary) : Notice :=
  .info ("wrote " ++ s.output.text ++ " (" ++ toString s.targets ++ " targets, " ++
    toString s.steps ++ " steps)")

/-- The text of the build file for targets, with their plan. -/
def plannedText (ctx : BuildContext) (targets : List Target) :
    Except GenerationError (BuildPlan × String) := do
  let plan ← BuildPlan.ofTargets ctx targets
  let document ← plan.document ctx
  let text ← document.render
  pure (plan, text)

/-- The tree with the build file for targets at `output`. -/
def generate (t : FileTree) (ctx : BuildContext) (output : Path) (targets : List Target) :
    FileTree × Except GenerationError GenerateSummary :=
  match plannedText ctx targets with
  | .error e => (t, .error e)
  | .ok (plan, text) =>
    match t.writeFile output text with
    | (t, .error e) => (t, .error (.io output e.message))
    | (t, .ok ()) =>
      (t, .ok ⟨output, plan.targets.length, plan.steps.length, text.utf8ByteSize⟩)

theorem generate_of_error {t : FileTree} {ctx : BuildContext} {output : Path}
    {targets : List Target} {e : GenerationError} (h : plannedText ctx targets = .error e) :
    generate t ctx output targets = (t, .error e) := by
  simp [generate, h]

end NinjaGen
