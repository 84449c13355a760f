import NinjaGen.Bindings
import NinjaGen.Path.Basic
import NinjaGen.Toolchain

/-!
# The layout of generated files

Everything that a build produces lies under one directory, the build root.

* `GenerateOptions` are the choices of a run, and `BuildContext` is all that the expansion of a
  target depends on besides the target.
* `Path.under` moves a path below a directory unless it is there already.
* `BuildContext.objectPath` places the object of a source.
-/

namespace NinjaGen

/-- The choices of a run. -/
structure GenerateOptions where
  /-- The directory for everything that is generated. -/
  buildRoot : Path := ⟨"build"⟩
  buildType : BuildType := .debug
  /-- The largest number of sources that one unity source includes. -/
  unityBatchSize : Nat := 20
  /-- The width at which lines of the build file are wrapped. -/
  lineWidth : Nat := 144
  /-- Whether the build file has a default target that covers all artifacts. -/
  emitDefault : Bool := true
  deriving DecidableEq, Repr, Inhabited

/-- All that the expansion of a target depends on besides the target. -/
structure BuildContext where
  profile : ToolchainProfile
  bindings : Bindings
  options : GenerateOptions

/-- The path with a component appended that cannot lead up: `..` becomes a name, and components
that only say where a path starts are left out. -/
def Path.descend (p : Path) : Component → Path
  | .root | .current => p
  | .parent => p.join ⟨"__"⟩
  | .normal name => p.join ⟨name⟩

/-- The path below the directory `dir`: as it is, without `.`, if it is there already, and
otherwise continued from `dir` component by component. -/
def Path.under (p dir : Path) : Path :=
  let p := p.withoutCurrent
  if p.startsWith dir then p else p.components.foldl Path.descend dir

/-- The path with a text appended to its last component. -/
def Path.appendText (p : Path) (s : String) : Path := ⟨p.text ++ s⟩

namespace BuildContext

/-- The directory for everything that is generated. -/
def buildRoot (ctx : BuildContext) : Path := ctx.options.buildRoot

/-- The flags that the build type adds to every compilation. -/
def buildTypeFlags (ctx : BuildContext) : List String :=
  ctx.profile.buildTypeFlags ctx.options.buildType

/-- The path moved below the build root. -/
def underBuildRoot (ctx : BuildContext) (p : Path) : Path := p.under ctx.buildRoot

/-- The object of a source. The extension of the source is kept, so that sources that differ in it
have different objects. -/
def objectPath (ctx : BuildContext) (source : Path) : Path :=
  (ctx.underBuildRoot source).appendText ctx.profile.objectExtension

end BuildContext

end NinjaGen
