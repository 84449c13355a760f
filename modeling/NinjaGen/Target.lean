/-!
# Targets

A target is an artifact to build: its kind, where it goes, its sources and the settings with which
they are compiled and linked.

* `TargetSettings` are the settings that may be left open. `TargetSettings.merge` lays one over
  another: what is set above replaces what is below, lists included (`merge_empty`, `empty_merge`,
  `merge_assoc`, `merge_self`). `TargetSettings.overlay` lays settings over a base so.
* `Target.ofSettings` fills what is still open with nothing.
-/

namespace NinjaGen

/-- What a target is. -/
inductive TargetKind
  | exe
  | staticLib
  | sharedLib
  deriving DecidableEq, Repr, Inhabited

namespace TargetKind

/-- The word for a kind in descriptors. -/
def word : TargetKind → String
  | exe => "exe"
  | staticLib => "staticlib"
  | sharedLib => "sharedlib"

/-- The kind that a word in a descriptor means. -/
def ofWord? : String → Option TargetKind
  | "exe" | "bin" | "executable" => some exe
  | "staticlib" | "lib" | "static" => some staticLib
  | "sharedlib" | "dylib" | "dynamic" | "shared" => some sharedLib
  | _ => none

theorem ofWord?_word (k : TargetKind) : ofWord? k.word = some k := by cases k <;> rfl

end TargetKind

/-- Settings for compiling and linking, each of which may be left open. -/
structure TargetSettings where
  /-- Flags for C sources. -/
  cflags : Option (List String) := none
  /-- Flags for C++ sources. -/
  cxxflags : Option (List String) := none
  /-- Flags for linking. -/
  ldflags : Option (List String) := none
  /-- Directories in which headers are looked up. -/
  includeDirs : Option (List String) := none
  /-- Definitions for the preprocessor, `NAME` or `NAME=VALUE`. -/
  defines : Option (List String) := none
  /-- Libraries on the command line of the linker. -/
  libs : Option (List String) := none
  /-- Files that linking depends on without naming them on its command line. -/
  linkDeps : Option (List String) := none
  /-- Whether sources are collected before they are compiled. -/
  unity : Option Bool := none
  deriving DecidableEq, Repr, Inhabited

namespace TargetSettings

/-- All settings left open. -/
def empty : TargetSettings := {}

/-- The settings of `above` where it has any, and those of `below` elsewhere. -/
def merge (below above : TargetSettings) : TargetSettings where
  cflags := above.cflags.or below.cflags
  cxxflags := above.cxxflags.or below.cxxflags
  ldflags := above.ldflags.or below.ldflags
  includeDirs := above.includeDirs.or below.includeDirs
  defines := above.defines.or below.defines
  libs := above.libs.or below.libs
  linkDeps := above.linkDeps.or below.linkDeps
  unity := above.unity.or below.unity

@[simp] theorem merge_empty (s : TargetSettings) : s.merge empty = s := by simp [merge, empty]

@[simp] theorem empty_merge (s : TargetSettings) : empty.merge s = s := by simp [merge, empty]

theorem merge_assoc (a b c : TargetSettings) : (a.merge b).merge c = a.merge (b.merge c) := by
  simp [merge, Option.or_assoc]

@[simp] theorem merge_self (s : TargetSettings) : s.merge s = s := by simp [merge]

/-- The settings `base` with others laid over them. -/
def overlay (base overrides : TargetSettings) : TargetSettings := base.merge overrides

end TargetSettings

/-- An artifact to build. -/
structure Target where
  name : String
  kind : TargetKind
  /-- The template of the path of the artifact. -/
  output : String
  /-- The sources, in the order of their declaration. -/
  sources : List String
  cflags : List String
  cxxflags : List String
  ldflags : List String
  includeDirs : List String
  defines : List String
  libs : List String
  linkDeps : List String
  unity : Bool
  deriving DecidableEq, Repr, Inhabited

namespace Target

/-- The target with those settings; a list left open is empty, and sources left open are not
collected. -/
def ofSettings (name : String) (kind : TargetKind) (output : String) (sources : List String)
    (s : TargetSettings) : Target where
  name := name
  kind := kind
  output := output
  sources := sources
  cflags := s.cflags.getD []
  cxxflags := s.cxxflags.getD []
  ldflags := s.ldflags.getD []
  includeDirs := s.includeDirs.getD []
  defines := s.defines.getD []
  libs := s.libs.getD []
  linkDeps := s.linkDeps.getD []
  unity := s.unity.getD false

end Target

end NinjaGen
