import NinjaGen.Data.Value
import NinjaGen.Plan

/-!
# Plans as values

A plan is exchanged as a record. Every step is a record with a field `type` that says of which kind
it is (`Step.kindOf`).

* `Step.toValue`, `PlannedTarget.toValue` and `BuildPlan.toValue` write.
* `Step.ofValue`, `PlannedTarget.ofValue` and `BuildPlan.ofValue` read; all fields are needed, and
  others are ignored.
-/

namespace NinjaGen

/-! ## Writing -/

/-- A list of texts as a value. -/
def Value.ofStrings (ss : List String) : Value := .list (ss.map .string)

/-- A list of paths as a value. -/
def Value.ofPaths (ps : List Path) : Value := .list (ps.map fun p => .string p.text)

/-- A step as a value. -/
def Step.toValue : Step → Value
  | .unity s => .record
    [("type", .string "unity"),
      ("output", .string s.output.text),
      ("members", .ofPaths s.members),
      ("lang", .string s.lang.ident),
      ("target", .string s.target)]
  | .compile s => .record
    [("type", .string "compile"),
      ("source", .string s.source.text),
      ("output", .string s.output.text),
      ("lang", .string s.lang.ident),
      ("flags", .ofStrings s.flags),
      ("include_dirs", .ofStrings s.includeDirs),
      ("defines", .ofStrings s.defines),
      ("target", .string s.target)]
  | .link s => .record
    [("type", .string "link"),
      ("objects", .ofPaths s.objects),
      ("output", .string s.output.text),
      ("implicit_inputs", .ofPaths s.implicitInputs),
      ("libs", .ofStrings s.libs),
      ("flags", .ofStrings s.flags),
      ("mode", .string s.mode.word),
      ("target", .string s.target)]
  | .archive s => .record
    [("type", .string "archive"),
      ("objects", .ofPaths s.objects),
      ("output", .string s.output.text),
      ("target", .string s.target)]

/-- A target with its steps as a value. -/
def PlannedTarget.toValue (t : PlannedTarget) : Value :=
  .record
    [("name", .string t.name),
      ("kind", .string t.kind.word),
      ("output", .string t.output.text),
      ("steps", .list (t.steps.map Step.toValue))]

/-- A plan as a value. -/
def BuildPlan.toValue (p : BuildPlan) : Value :=
  .record [("targets", .list (p.targets.map PlannedTarget.toValue))]

/-! ## Reading -/

/-- A path. -/
def Value.asPath (v : Value) : Except DecodeError Path := v.asString.map Path.mk

/-- A list of paths. -/
def Value.asPaths (v : Value) : Except DecodeError (List Path) := v.asStrings.map (·.map Path.mk)

/-- The word for the kind of a step that a value describes, and a value with its other fields. In
a list the word comes first. -/
def Step.kindOf : Value → Except DecodeError (String × Value)
  | .list (kind :: items) => do pure (← kind.asString, .list items)
  | .record fields => do pure (← Fields.required fields "type" Value.asString, .record fields)
  | _ => .error .mismatch

/-- The step that a value describes. -/
def Step.ofValue (v : Value) : Except DecodeError Step := do
  let (kind, v) ← Step.kindOf v
  match kind with
  | "unity" =>
    let fields ← v.asRecord .tagged ["output", "members", "lang", "target"]
    let output ← Fields.required fields "output" Value.asPath
    let members ← Fields.required fields "members" Value.asPaths
    let lang ← Fields.required fields "lang" (Value.asNamed .tagged Language.ofWord?)
    let target ← Fields.required fields "target" Value.asString
    pure (.unity ⟨output, members, lang, target⟩)
  | "compile" =>
    let fields ← v.asRecord .tagged
      ["source", "output", "lang", "flags", "include_dirs", "defines", "target"]
    let source ← Fields.required fields "source" Value.asPath
    let output ← Fields.required fields "output" Value.asPath
    let lang ← Fields.required fields "lang" (Value.asNamed .tagged Language.ofWord?)
    let flags ← Fields.required fields "flags" Value.asStrings
    let includeDirs ← Fields.required fields "include_dirs" Value.asStrings
    let defines ← Fields.required fields "defines" Value.asStrings
    let target ← Fields.required fields "target" Value.asString
    pure (.compile ⟨source, output, lang, flags, includeDirs, defines, target⟩)
  | "link" =>
    let fields ← v.asRecord .tagged
      ["objects", "output", "implicit_inputs", "libs", "flags", "mode", "target"]
    let objects ← Fields.required fields "objects" Value.asPaths
    let output ← Fields.required fields "output" Value.asPath
    let implicitInputs ← Fields.required fields "implicit_inputs" Value.asPaths
    let libs ← Fields.required fields "libs" Value.asStrings
    let flags ← Fields.required fields "flags" Value.asStrings
    let mode ← Fields.required fields "mode" (Value.asNamed .tagged LinkMode.ofWord?)
    let target ← Fields.required fields "target" Value.asString
    pure (.link ⟨objects, output, implicitInputs, libs, flags, mode, target⟩)
  | "archive" =>
    let fields ← v.asRecord .tagged ["objects", "output", "target"]
    let objects ← Fields.required fields "objects" Value.asPaths
    let output ← Fields.required fields "output" Value.asPath
    let target ← Fields.required fields "target" Value.asString
    pure (.archive ⟨objects, output, target⟩)
  | _ => .error .mismatch

/-- The target with steps that a value describes. -/
def PlannedTarget.ofValue (v : Value) : Except DecodeError PlannedTarget := do
  let fields ← v.asRecord .json ["name", "kind", "output", "steps"]
  let name ← Fields.required fields "name" Value.asString
  let kind ← Fields.required fields "kind" (Value.asNamed .json TargetKind.ofWord?)
  let output ← Fields.required fields "output" Value.asPath
  let steps ← Fields.required fields "steps" Value.asList
  let steps ← steps.mapM Step.ofValue
  pure ⟨name, kind, output, steps⟩

/-- The plan that a value describes. -/
def BuildPlan.ofValue (v : Value) : Except DecodeError BuildPlan := do
  let fields ← v.asRecord .json ["targets"]
  let targets ← Fields.required fields "targets" Value.asList
  let targets ← targets.mapM PlannedTarget.ofValue
  pure ⟨targets⟩

end NinjaGen
