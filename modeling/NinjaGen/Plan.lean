import NinjaGen.Expansion

/-!
# Plans

A plan holds the expansions of all targets of a run. No two of its steps produce the same file.

* `BuildPlan.ofTargets` expands the targets one after another and stops at the first that fails or
  produces a file again.
* `BuildPlan.steps`, `BuildPlan.usedRules` and `BuildPlan.finalOutputs` are views of a plan.
-/

namespace NinjaGen

/-- The expansions of the targets of a run, in their order. -/
structure BuildPlan where
  targets : List PlannedTarget
  deriving DecidableEq, Repr

namespace BuildPlan

/-! ## Files that are produced twice -/

/-- The claim of a step to the file that it produces. -/
structure Claim where
  /-- The components of the path of the file. -/
  output : List Component
  /-- The step in words. -/
  wording : String
  deriving DecidableEq, Repr

/-- The claim of a step. -/
def Claim.ofStep (s : Step) : Claim := ⟨s.output.components, s.wording⟩

/-- The claims `made` so far, latest first, with those of more steps; a second claim to a file is
an error. -/
def claim (made : List Claim) : List Step → Except GenerationError (List Claim)
  | [] => .ok made
  | s :: r =>
    let new := Claim.ofStep s
    match made.find? (·.output = new.output) with
    | some first => .error (.duplicateOutput s.output.text first.wording new.wording)
    | none => claim (new :: made) r

/-! ## Planning -/

/-- The expansions of targets, after steps that have made their claims. -/
def expandAll (ctx : BuildContext) (made : List Claim) :
    List Target → Except GenerationError (List PlannedTarget)
  | [] => .ok []
  | t :: r =>
    match expandTarget ctx t with
    | .error e => .error (e.inTarget t.name)
    | .ok planned => do
      let made ← claim made planned.steps
      let rest ← expandAll ctx made r
      pure (planned :: rest)

/-- The plan for targets. -/
def ofTargets (ctx : BuildContext) (targets : List Target) : Except GenerationError BuildPlan := do
  let planned ← expandAll ctx [] targets
  pure ⟨planned⟩

/-! ## Views -/

/-- The steps of all targets, in order. -/
def steps (p : BuildPlan) : List Step := p.targets.flatMap (·.steps)

/-- The rules that run at least one step, in the order of their declaration. -/
def usedRules (p : BuildPlan) : List Rule := Rule.all.filter fun r => p.steps.any (·.rule = r)

theorem mem_usedRules {p : BuildPlan} {r : Rule} :
    r ∈ p.usedRules ↔ ∃ s ∈ p.steps, s.rule = r := by
  simp [usedRules, Rule.mem_all]

/-- The artifacts of the targets, in order. -/
def finalOutputs (p : BuildPlan) : List Path := p.targets.map (·.output)

/-- The number of compilations. -/
def compileCount (p : BuildPlan) : Nat := p.steps.countP Step.isCompile

/-- The number of steps that produce artifacts. -/
def linkCount (p : BuildPlan) : Nat := p.steps.countP Step.isFinal

end BuildPlan

end NinjaGen
