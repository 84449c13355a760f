import NinjaGen.Ninja.Writer
import NinjaGen.Plan

/-!
# The document of a plan

A plan becomes a Ninja file in two steps: first a document, which holds the rules and edges, and
then its text.

* `BuildPlan.document` declares the rules that some step uses, gathers the edges of each target,
  and covers all artifacts by a default if that is wanted.
* `Document.statements` lists the statements of the file, and `Document.render` is its text.
-/

namespace NinjaGen

/-! ## Documents -/

/-- The declaration of a rule. -/
structure RuleDecl where
  name : String
  command : String
  options : Ninja.RuleOptions
  deriving DecidableEq, Repr

/-- The edges of one target, under a comment that names it. -/
structure EdgeGroup where
  comment : String
  edges : List Ninja.BuildEdge
  deriving DecidableEq, Repr

/-- The content of a build file. -/
structure Document where
  buildRoot : Path
  rules : List RuleDecl
  groups : List EdgeGroup
  /-- The artifacts that the default target covers. -/
  defaults : List String
  lineWidth : Nat
  deriving DecidableEq, Repr

namespace Document

/-- The first comment of a build file. -/
def header : String :=
  "build.ninja generated by dockyard. Edit the BUILD.toml descriptors instead of this file."

/-- The oldest Ninja that reads the file. -/
def requiredVersion : String := "1.3"

/-- The name of the target that covers all artifacts. -/
def allTarget : String := "all"

/-! ## Rules -/

/-- The declaration of a rule for a toolchain. -/
def ruleDecl (t : ToolchainProfile) : Rule → Except GenerationError RuleDecl
  | .compile l => do
    let command ← t.compileCommand l
    let label := match l with
      | .c => "CC $out"
      | .cxx => "CXX $out"
    pure
      { name := (Rule.compile l).name
        command := command
        options :=
          { description := some label
            deps := some t.depsStyle.word
            depfile := t.depsStyle.depfile? } }
  | .link => do
    let command ← t.linkCommand
    pure ⟨Rule.link.name, command, { description := some "LINK $out" }⟩
  | .archive => do
    let command ← t.archiveCommand
    pure ⟨Rule.archive.name, command, { description := some "AR $out" }⟩
  | .unity => .ok ⟨Rule.unity.name, t.unityCommand, { description := some "UNITY $out" }⟩

/-! ## Edges -/

/-- Values as the value of a variable; empty ones are left out. -/
def variableValue (values : List String) : Except GenerationError String := do
  let es ← (values.filter (· ≠ "")).mapM Ninja.escape
  pure (" ".intercalate es)

/-- The edge of a step. -/
def stepEdge (t : ToolchainProfile) : Step → Except GenerationError Ninja.BuildEdge
  | .unity s =>
    .ok
      { outputs := [s.output.text]
        rule := (Step.unity s).rule.name
        inputs := s.members.map (·.text) }
  | .compile s => do
    let flags ← variableValue s.flags
    let incs ← variableValue (s.includeDirs.map t.includeArg)
    let defines ← variableValue (s.defines.map t.defineArg)
    pure
      { outputs := [s.output.text]
        rule := (Step.compile s).rule.name
        inputs := [s.source.text]
        assignments := [("flags", flags), ("incs", incs), ("defines", defines)] }
  | .link s => do
    let libs ← variableValue s.libs
    let ldflags ← variableValue s.flags
    pure
      { outputs := [s.output.text]
        rule := (Step.link s).rule.name
        inputs := s.objects.map (·.text)
        implicit := s.implicitInputs.map (·.text)
        assignments := [("libs", libs), ("ldflags", ldflags)] }
  | .archive s =>
    .ok
      { outputs := [s.output.text]
        rule := (Step.archive s).rule.name
        inputs := s.objects.map (·.text) }

/-- The edges of a target. -/
def edgeGroup (t : ToolchainProfile) (p : PlannedTarget) : Except GenerationError EdgeGroup :=
  match p.steps.mapM (stepEdge t) with
  | .ok edges => .ok ⟨p.kind.word ++ " target: " ++ p.name, edges⟩
  | .error e => .error (e.inTarget p.name)

end Document

/-- The document of a plan. -/
def BuildPlan.document (p : BuildPlan) (ctx : BuildContext) : Except GenerationError Document := do
  let rules ← p.usedRules.mapM (Document.ruleDecl ctx.profile)
  let groups ← p.targets.mapM (Document.edgeGroup ctx.profile)
  pure
    { buildRoot := ctx.buildRoot
      rules := rules
      groups := groups
      defaults := if ctx.options.emitDefault then p.finalOutputs.map (·.text) else []
      lineWidth := ctx.options.lineWidth }

namespace Document

/-! ## Text -/

/-- The statements of a rule. -/
def ruleStatements (r : RuleDecl) : List Ninja.Statement :=
  [.rule r.name r.command r.options, .blank]

/-- The statements of a group of edges. -/
def groupStatements (g : EdgeGroup) : List Ninja.Statement :=
  .comment g.comment :: g.edges.map .build ++ [.blank]

/-- The statements that make everything the default. -/
def defaultStatements (d : Document) : List Ninja.Statement :=
  if d.defaults = [] then []
  else
    [.build { outputs := [allTarget], rule := "phony", inputs := d.defaults },
      .defaults [allTarget]]

/-- The statements of the file, given the build root in its escaped form. -/
def statements (d : Document) (buildRoot : String) : List Ninja.Statement :=
  [.comment header,
    .assign "ninja_required_version" requiredVersion 0,
    .assign "builddir" buildRoot 0,
    .blank] ++
  d.rules.flatMap ruleStatements ++ d.groups.flatMap groupStatements ++ d.defaultStatements

/-- The text of the file. -/
def render (d : Document) : Except GenerationError String := do
  let buildRoot ← Ninja.escape d.buildRoot.text
  let text ← Ninja.Statement.writeAll d.lineWidth (d.statements buildRoot)
  pure (String.ofList text)

end Document

/-- The text of the build file for targets. -/
def renderTargets (ctx : BuildContext) (targets : List Target) : Except GenerationError String := do
  let plan ← BuildPlan.ofTargets ctx targets
  let document ← plan.document ctx
  document.render

end NinjaGen
