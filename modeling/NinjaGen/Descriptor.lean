import NinjaGen.Config
import NinjaGen.Expansion
import NinjaGen.Glob.Walk

/-!
# Descriptors

A descriptor is a file that declares targets. Its sources are written relative to the project root
and may be patterns.

* `TargetSpec` is a declaration, and `Descriptor.parse` reads those of a descriptor.
* `TargetSpec.target` makes a target of a declaration: patterns are expanded, and its settings are
  laid over the defaults of the project (`outcome_target_eq_ok_iff`).
* `Descriptor.load` reads the targets of one descriptor; `FileTree.filesNamed` finds the
  descriptors of a project, and `discoverTargets` reads them all.
-/

namespace NinjaGen

/-- The declaration of a target. -/
structure TargetSpec where
  name : String
  kind : TargetKind
  output : String
  /-- Paths and patterns, relative to the project root. -/
  sources : List String
  settings : TargetSettings
  deriving DecidableEq, Repr

namespace TargetSpec

/-- The declaration that a value describes. Fields of its own are read before those that it lacks
are missed, and its settings after that. -/
def ofValue (v : Value) : Except DecodeError TargetSpec := do
  let fields ← v.asFields
  let name ← Fields.optional fields "name" Value.asString
  let kind ← Fields.optional fields "kind" (Value.asNamed .toml TargetKind.ofWord?)
  let output ← Fields.optional fields "output" Value.asString
  let sources ← Fields.optional fields "sources" Value.asStrings
  match name, output with
  | none, _ => .error (.missingField "name")
  | some _, none => .error (.missingField "output")
  | some name, some output =>
    let settings ← TargetSettings.ofFields fields
    pure ⟨name, kind.getD .exe, output, sources.getD [], settings⟩

/-- The source with its placeholders replaced if it is a pattern, so that it names directories that
are there. A plain path keeps its placeholders until the target is expanded. -/
def resolvedSource (b : Bindings) (source : String) : Except GenerationError String :=
  if Glob.isPattern source then Template.expand b source else .ok source

/-- The target of a declaration in a project. -/
def target (t : FileTree) (root : Path) (defaults : TargetSettings) (b : Bindings)
    (spec : TargetSpec) : Logged Target := do
  let entries ← .ofExcept ((spec.sources.mapM (resolvedSource b)).mapError fun e =>
    .generation (e.inTarget spec.name))
  let sources ← Glob.files t root entries
  pure (.ofSettings spec.name spec.kind spec.output (sources.map (·.text))
    (defaults.overlay spec.settings))

/-- A declaration makes a target when its patterns can be told and searched for; the target has the
settings of the declaration over the defaults. -/
theorem outcome_target_eq_ok_iff {t : FileTree} {root : Path} {defaults : TargetSettings}
    {b : Bindings} {spec : TargetSpec} {target : Target} :
    (spec.target t root defaults b).outcome = .ok target ↔
      ∃ entries files, spec.sources.map (resolvedSource b) = entries.map .ok ∧
        (Glob.files t root entries).outcome = .ok files ∧
        target = .ofSettings spec.name spec.kind spec.output (files.map (·.text))
          (defaults.overlay spec.settings) := by
  simp only [TargetSpec.target, Logged.outcome_bind, Logged.outcome_pure]
  constructor
  · intro h
    obtain ⟨entries, hentries, h⟩ := bind_eq_ok_iff.1 h
    obtain ⟨files, hfiles, h⟩ := bind_eq_ok_iff.1 h
    cases h
    exact ⟨entries, files, mapM_eq_ok_iff.1 (mapError_eq_ok_iff.1 hentries), hfiles, rfl⟩
  · rintro ⟨entries, files, hentries, hfiles, rfl⟩
    refine bind_eq_ok_iff.2 ⟨entries, ?_, bind_eq_ok_iff.2 ⟨files, hfiles, rfl⟩⟩
    exact mapError_eq_ok_iff.2 (mapM_eq_ok_iff.2 hentries)

end TargetSpec

namespace Descriptor

/-- The name of a descriptor. -/
def fileName : String := "BUILD.toml"

/-- The declarations that a value describes. -/
def ofValue (v : Value) : Except DecodeError (List TargetSpec) := do
  let fields ← v.asFields
  let targets ← Fields.optional fields "target" Value.asList
  (targets.getD []).mapM TargetSpec.ofValue

/-- The declarations that a text describes. -/
def parse (text : String) : Except ContentError (List TargetSpec) :=
  match Toml.parse text with
  | .error e => .error (.malformed e)
  | .ok v => (ofValue v).mapError .ofDecode

/-- The targets of declarations, one after another. -/
def targets (t : FileTree) (root : Path) (defaults : TargetSettings) (b : Bindings) :
    List TargetSpec → Logged (List Target)
  | [] => .ok []
  | spec :: r => do
    let target ← spec.target t root defaults b
    let rest ← targets t root defaults b r
    pure (target :: rest)

/-- The targets of a descriptor. -/
def load (t : FileTree) (root : Path) (defaults : TargetSettings) (b : Bindings) (path : Path) :
    Logged (List Target) := do
  let text ← .ofExcept ((t.read path).mapError (.unreadable path))
  let specs ← .ofExcept ((parse text).mapError (.descriptor path))
  targets t root defaults b specs

end Descriptor

/-! ## Discovery -/

namespace FileTree

/-- Whether a name is hidden. -/
def isHidden (name : String) : Bool := name.toList.head? = some '.'

/-- The directories on the way to a location below `p`, without the last name of the way. -/
def directoriesOnWay (p : Path) : List String → List (String × Path)
  | [] | [_] => []
  | name :: rest => (name, p.join ⟨name⟩) :: directoriesOnWay (p.join ⟨name⟩) rest

/-- Whether a search below `p` comes to a location: no directory on the way is hidden or to be
skipped. -/
def isReached (p : Path) (skipped : List Path) (names : List String) : Bool :=
  (directoriesOnWay p names).all fun d => !isHidden d.1 && !skipped.any d.2.same

/-- The files of a name below `root`, in the order of their paths. Where `root` is a file itself,
it is the only one that may have the name. -/
def filesNamed (t : FileTree) (root : Path) (name : String) (skipped : List Path) :
    Except Failure (List Path) :=
  match t.locate root, t.status root with
  | .error e, _ | _, .error e => .error (.unsearchable root e)
  | .ok _, .ok (.file _) =>
    .ok (if root.fileName?.getD root.text = name then [root] else [])
  | .ok l, .ok .directory =>
    let found := (t.descendants l).filter fun e =>
      e.2 ≠ .directory && e.1.getLast? = some name && isReached root skipped e.1
    .ok (Path.sort (found.map fun e => Glob.extend root e.1))

end FileTree

/-- The targets of descriptors, after those `declared` in the descriptors that come with them. A
name that is there already is an error as soon as its descriptor has been read. -/
def discoverFrom (t : FileTree) (root : Path) (defaults : TargetSettings) (b : Bindings)
    (declared : List (String × Path)) : List Path → Logged (List Target)
  | [] => .ok []
  | file :: r => do
    let targets ← Descriptor.load t root defaults b file
    let declared ← .ofExcept (declare file declared targets)
    let rest ← discoverFrom t root defaults b declared r
    pure (targets ++ rest)
where
  /-- The declarations with those of a descriptor. -/
  declare (file : Path) (declared : List (String × Path)) :
      List Target → Except Failure (List (String × Path))
    | [] => .ok declared
    | target :: r =>
      match declared.find? (·.1 = target.name) with
      | some first => .error (.declaredTwice target.name first.2 file)
      | none => declare file ((target.name, file) :: declared) r

/-- The targets that the descriptors of a project declare. Hidden directories and the build root
hold none. -/
def discoverTargets (t : FileTree) (root buildRoot : Path) (defaults : TargetSettings)
    (b : Bindings) : Logged (List Target) := do
  let found ← .ofExcept (t.filesNamed root Descriptor.fileName [root.join buildRoot])
  if found = [] then .fail (.noDescriptors root)
  else discoverFrom t root defaults b [] found

end NinjaGen
