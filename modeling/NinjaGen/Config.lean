import NinjaGen.Data.Plan
import NinjaGen.Failure
import NinjaGen.Layout
import NinjaGen.Target
import NinjaGen.Toml.Document

/-!
# Configuration

A configuration chooses the build root, the toolchain, bindings and the settings under every
target. Each choice may be left open, and one configuration may be laid over another.

* `Config.merge` lays one configuration over another: what is set above wins, field by field, and
  bindings name by name (`merge_empty`, `empty_merge`, `merge_assoc`, `merge_self`).
* `Config.ofValue` and `Config.parse` read a configuration.
* `BuildConfig.options`, `BuildConfig.outputPath` and `ToolchainSettings.toProfile` settle what is
  still open.
* `loadConfig` reads the configuration files of a run.
-/

namespace NinjaGen

/-! ## Parts of a configuration -/

/-- The choices for a build. -/
structure BuildConfig where
  buildDir : Option Path := none
  buildType : Option BuildType := none
  /-- The generated file. -/
  output : Option Path := none
  unityBatchSize : Option Nat := none
  lineWidth : Option Nat := none
  emitDefault : Option Bool := none
  deriving DecidableEq, Repr, Inhabited

namespace BuildConfig

/-- The choices of `above` where it has any, and those of `below` elsewhere. -/
def merge (below above : BuildConfig) : BuildConfig where
  buildDir := above.buildDir.or below.buildDir
  buildType := above.buildType.or below.buildType
  output := above.output.or below.output
  unityBatchSize := above.unityBatchSize.or below.unityBatchSize
  lineWidth := above.lineWidth.or below.lineWidth
  emitDefault := above.emitDefault.or below.emitDefault

/-- The options of a run, with the usual ones for what is open. The build root is respelled without
`.`, so that `./build` and `build` are one. -/
def options (b : BuildConfig) : GenerateOptions :=
  let usual : GenerateOptions := {}
  { buildRoot := (b.buildDir.map Path.withoutCurrent).getD usual.buildRoot
    buildType := b.buildType.getD usual.buildType
    unityBatchSize := b.unityBatchSize.getD usual.unityBatchSize
    lineWidth := b.lineWidth.getD usual.lineWidth
    emitDefault := b.emitDefault.getD usual.emitDefault }

/-- The path of the generated file. -/
def outputPath (b : BuildConfig) : Path := b.output.getD ⟨"build.ninja"⟩

end BuildConfig

/-- The choices for the toolchain. -/
structure ToolchainSettings where
  /-- The name of the family of compilers. -/
  profile : Option String := none
  /-- The C compiler; an empty name means that C cannot be compiled. -/
  cc : Option String := none
  /-- The C++ compiler; an empty name means that C++ cannot be compiled. -/
  cxx : Option String := none
  linker : Option String := none
  /-- The archiver. -/
  ar : Option String := none
  deriving DecidableEq, Repr, Inhabited

namespace ToolchainSettings

/-- The choices of `above` where it has any, and those of `below` elsewhere. -/
def merge (below above : ToolchainSettings) : ToolchainSettings where
  profile := above.profile.or below.profile
  cc := above.cc.or below.cc
  cxx := above.cxx.or below.cxx
  linker := above.linker.or below.linker
  ar := above.ar.or below.ar

/-- The family of compilers: the one asked for, or else the configured one, or else GCC. -/
def platform (s : ToolchainSettings) (asked : Option Platform) : Except Failure Platform :=
  match asked, s.profile with
  | some p, _ => .ok p
  | none, none => .ok .gcc
  | none, some name =>
    match Platform.ofName? name with
    | some p => .ok p
    | none => .error (.unknownProfile name)

/-- The C++ compiler that goes with the chosen compilers, if the choice says anything about it. -/
def chosenCxx (s : ToolchainSettings) : Option String :=
  match s.cxx, s.cc with
  | some cxx, _ => some cxx
  | none, some cc => if cc = "" then none else some (inferCxx cc)
  | none, none => none

/-- The linker that goes with the choices: the chosen one, or else the C++ compiler that goes with
them where C++ compilers link. -/
def chosenLinker (s : ToolchainSettings) (p : Platform) : Option String :=
  match s.linker with
  | some linker => some linker
  | none => if p = .msvc then none else s.chosenCxx.filter (· ≠ "")

/-- The profile of a family with the chosen executables. -/
def overPlatform (s : ToolchainSettings) (p : Platform) : ToolchainProfile :=
  let usual := ToolchainProfile.ofPlatform p
  { usual with
    cCompiler := s.cc.or usual.cCompiler
    cxxCompiler := s.chosenCxx.or usual.cxxCompiler
    linker := (s.chosenLinker p).getD usual.linker
    archiver := s.ar.getD usual.archiver }

/-- The profile that the choices describe. -/
def toProfile (s : ToolchainSettings) (asked : Option Platform) :
    Except Failure ToolchainProfile :=
  (s.platform asked).map s.overPlatform

end ToolchainSettings

/-! ## Configurations -/

/-- The choices of a user or a project. -/
structure Config where
  build : BuildConfig := {}
  toolchain : ToolchainSettings := {}
  /-- Bindings besides those that every run has. -/
  vars : Bindings := .empty
  /-- The settings under those of every target. -/
  defaults : TargetSettings := {}
  deriving DecidableEq, Inhabited

namespace Config

/-- Everything left open. -/
def empty : Config := {}

/-- The choices of `above` where it has any, and those of `below` elsewhere. -/
def merge (below above : Config) : Config where
  build := below.build.merge above.build
  toolchain := below.toolchain.merge above.toolchain
  vars := below.vars.extend above.vars
  defaults := below.defaults.merge above.defaults

end Config

theorem Bindings.extend_empty (b : Bindings) : b.extend .empty = b := rfl

theorem Bindings.empty_extend (b : Bindings) : Bindings.empty.extend b = b :=
  ext_get? fun name => by simp [get?_extend]

theorem Bindings.extend_assoc (a b c : Bindings) : (a.extend b).extend c = a.extend (b.extend c) :=
  ext_get? fun name => by simp [get?_extend, Option.or_assoc]

theorem Bindings.extend_self (b : Bindings) : b.extend b = b :=
  ext_get? fun name => by simp [get?_extend]

namespace Config

@[simp] theorem merge_empty (c : Config) : c.merge empty = c := by
  simp [merge, empty, BuildConfig.merge, ToolchainSettings.merge, TargetSettings.merge,
    Bindings.extend_empty]

@[simp] theorem empty_merge (c : Config) : empty.merge c = c := by
  simp [merge, empty, BuildConfig.merge, ToolchainSettings.merge, TargetSettings.merge,
    Bindings.empty_extend]

theorem merge_assoc (a b c : Config) : (a.merge b).merge c = a.merge (b.merge c) := by
  simp [merge, BuildConfig.merge, ToolchainSettings.merge, TargetSettings.merge,
    Bindings.extend_assoc, Option.or_assoc]

@[simp] theorem merge_self (c : Config) : c.merge c = c := by
  simp [merge, BuildConfig.merge, ToolchainSettings.merge, TargetSettings.merge,
    Bindings.extend_self]

end Config

/-! ## Reading -/

/-- The settings that the fields of a record choose. -/
def TargetSettings.ofFields (fields : List (String × Value)) :
    Except DecodeError TargetSettings := do
  let cflags ← Fields.nullable fields "cflags" Value.asStrings
  let cxxflags ← Fields.nullable fields "cxxflags" Value.asStrings
  let ldflags ← Fields.nullable fields "ldflags" Value.asStrings
  let includeDirs ← Fields.nullable fields "include_dirs" Value.asStrings
  let defines ← Fields.nullable fields "defines" Value.asStrings
  let libs ← Fields.nullable fields "libs" Value.asStrings
  let linkDeps ← Fields.nullable fields "link_deps" Value.asStrings
  let unity ← Fields.nullable fields "unity" Value.asBool
  pure ⟨cflags, cxxflags, ldflags, includeDirs, defines, libs, linkDeps, unity⟩

/-- The names of the settings. -/
def TargetSettings.fieldNames : List String :=
  ["cflags", "cxxflags", "ldflags", "include_dirs", "defines", "libs", "link_deps", "unity"]

/-- The settings that a value describes. -/
def TargetSettings.ofValue (c : Convention) (v : Value) : Except DecodeError TargetSettings := do
  TargetSettings.ofFields (← v.asRecord c TargetSettings.fieldNames)

/-- The names of the choices for a build. -/
def BuildConfig.fieldNames : List String :=
  ["build_dir", "build_type", "output", "unity_batch_size", "line_width", "emit_default"]

/-- The choices for a build that a value describes. -/
def BuildConfig.ofValue (c : Convention) (v : Value) : Except DecodeError BuildConfig := do
  let fields ← v.asRecord c BuildConfig.fieldNames
  let buildDir ← Fields.nullable fields "build_dir" Value.asPath
  let buildType ← Fields.nullable fields "build_type" (Value.asNamed c BuildType.ofWord?)
  let output ← Fields.nullable fields "output" Value.asPath
  let unityBatchSize ← Fields.nullable fields "unity_batch_size" Value.asSize
  let lineWidth ← Fields.nullable fields "line_width" Value.asSize
  let emitDefault ← Fields.nullable fields "emit_default" Value.asBool
  pure ⟨buildDir, buildType, output, unityBatchSize, lineWidth, emitDefault⟩

/-- The choices for the toolchain that a value describes. -/
def ToolchainSettings.ofValue (c : Convention) (v : Value) :
    Except DecodeError ToolchainSettings := do
  let fields ← v.asRecord c ["profile", "cc", "cxx", "linker", "ar"]
  let profile ← Fields.nullable fields "profile" Value.asString
  let cc ← Fields.nullable fields "cc" Value.asString
  let cxx ← Fields.nullable fields "cxx" Value.asString
  let linker ← Fields.nullable fields "linker" Value.asString
  let ar ← Fields.nullable fields "ar" Value.asString
  pure ⟨profile, cc, cxx, linker, ar⟩

/-- The bindings that a value describes. -/
def Bindings.ofValue (v : Value) : Except DecodeError Bindings := do
  let fields ← v.asFields
  let pairs ← fields.mapM fun (name, v) => do
    let value ← v.asString
    pure (name, value)
  pure (.ofList pairs)

namespace Config

/-- The configuration that a value describes. Fields that it does not have are left open, and
fields that are not known are ignored. -/
def ofValue (c : Convention) (v : Value) : Except DecodeError Config := do
  let fields ← v.asRecord c ["build", "toolchain", "vars", "defaults"]
  let build ← Fields.optional fields "build" (BuildConfig.ofValue c)
  let toolchain ← Fields.optional fields "toolchain" (ToolchainSettings.ofValue c)
  let vars ← Fields.optional fields "vars" Bindings.ofValue
  let defaults ← Fields.optional fields "defaults" (TargetSettings.ofValue c)
  pure
    { build := build.getD {}
      toolchain := toolchain.getD {}
      vars := vars.getD .empty
      defaults := defaults.getD {} }

/-- The configuration that a text describes. -/
def parse (text : String) : Except ContentError Config :=
  match Toml.parse text with
  | .error e => .error (.malformed e)
  | .ok v => (ofValue .toml v).mapError .ofDecode

/-- The configuration in a file. -/
def load (t : FileTree) (path : Path) : Except Failure Config :=
  match t.read path with
  | .error e => .error (.configUnreadable path e)
  | .ok text => (parse text).mapError (.configInvalid path)

/-- The configuration in a file that need not be there. -/
def loadIfThere (t : FileTree) (path : Path) : Except Failure Config :=
  if t.isThere path then load t path else .ok empty

end Config

/-- The configuration of a run: that of the project over that of the user. Either may be missing,
but one that is there has to be readable. -/
def loadConfig (t : FileTree) (user : Option Path) (project : Path) : Except Failure Config := do
  let below ← match user with
    | some path => Config.loadIfThere t path
    | none => pure .empty
  let above ← Config.loadIfThere t project
  pure (below.merge above)

end NinjaGen
