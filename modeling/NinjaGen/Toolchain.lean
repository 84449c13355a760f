import NinjaGen.Language
import NinjaGen.Ninja.Escape

/-!
# Toolchains

A toolchain profile describes one family of compilers: its executables, the extension of its
objects and the conventions of its command lines. It is chosen once for a run.

* `Platform`, `OutputStyle`, `DepsStyle` and `BuildType` are the conventions; each is read back from
  its own name (`Platform.ofName?_name`, `BuildType.ofName?_name`).
* `ToolchainProfile.ofPlatform` is the usual profile of a family of compilers.
* `ToolchainProfile.compiler` is the executable for a language, if it can be compiled
  (`compiler_eq_ok_iff`).
* `ToolchainProfile.compileCommand`, `linkCommand`, `archiveCommand` and `unityCommand` are the
  command lines, with the variables `$in`, `$out`, `$flags`, … still to be filled in.
* `inferCxx` guesses the C++ compiler that belongs to a C compiler.
-/

namespace NinjaGen

/-! ## Conventions -/

/-- A family of compilers. -/
inductive Platform
  | gcc
  | clang
  | msvc
  deriving DecidableEq, Repr, Inhabited

namespace Platform

/-- The name of the family. -/
def name : Platform → String
  | gcc => "gcc"
  | clang => "clang"
  | msvc => "msvc"

/-- The family that a word in data means. -/
def ofWord? : String → Option Platform
  | "gcc" => some gcc
  | "clang" => some clang
  | "msvc" => some msvc
  | _ => none

/-- The family that a user's name for it means. -/
def ofName? : String → Option Platform
  | "gcc" | "gnu" => some gcc
  | "clang" | "llvm" => some clang
  | "msvc" | "cl" => some msvc
  | _ => none

/-- What is said of a name that means no family. -/
def unknownName (s : String) : String :=
  "unknown toolchain profile '" ++ s ++ "', valid values: gcc, clang, msvc"

theorem ofWord?_name (p : Platform) : ofWord? p.name = some p := by cases p <;> rfl

theorem ofName?_name (p : Platform) : ofName? p.name = some p := by cases p <;> rfl

end Platform

/-- How a tool is told where its output goes. -/
inductive OutputStyle
  | gnu
  | msvc
  deriving DecidableEq, Repr

namespace OutputStyle

/-- The word for a style in data. -/
def word : OutputStyle → String
  | gnu => "gnu"
  | msvc => "msvc"

/-- The style that a word in data means. -/
def ofWord? : String → Option OutputStyle
  | "gnu" => some gnu
  | "msvc" => some msvc
  | _ => none

/-- The argument for a compiler. -/
def compileOutput : OutputStyle → String
  | gnu => "-o $out"
  | msvc => "/Fo$out"

/-- The argument for a linker or an archiver. -/
def linkOutput : OutputStyle → String
  | gnu => "-o $out"
  | msvc => "/OUT:$out"

end OutputStyle

/-- How a compiler reports the headers that a source includes. -/
inductive DepsStyle
  /-- In a file beside the object. -/
  | gcc
  /-- In its output. -/
  | msvc
  deriving DecidableEq, Repr

namespace DepsStyle

/-- The word for a style, in data and in the rule that compiles. -/
def word : DepsStyle → String
  | gcc => "gcc"
  | msvc => "msvc"

/-- The style that a word in data means. -/
def ofWord? : String → Option DepsStyle
  | "gcc" => some gcc
  | "msvc" => some msvc
  | _ => none

/-- The arguments that ask a compiler for the report. -/
def compileArgs : DepsStyle → String
  | gcc => "-MMD -MF $out.d"
  | msvc => "/showIncludes"

/-- The file with the report, if there is one. -/
def depfile? : DepsStyle → Option String
  | gcc => some "$out.d"
  | msvc => none

end DepsStyle

/-- What a build is for. -/
inductive BuildType
  | debug
  | release
  deriving DecidableEq, Repr, Inhabited

namespace BuildType

/-- The name of the build type. -/
def name : BuildType → String
  | debug => "debug"
  | release => "release"

/-- The build type that a word in data means. -/
def ofWord? : String → Option BuildType
  | "debug" => some debug
  | "release" => some release
  | _ => none

/-- The build type that a user's name for it means. -/
def ofName? : String → Option BuildType
  | "debug" | "dev" => some debug
  | "release" => some release
  | _ => none

/-- What is said of a name that means no build type. -/
def unknownName (s : String) : String :=
  "unknown build type '" ++ s ++ "', valid values: debug, release"

theorem ofWord?_name (b : BuildType) : ofWord? b.name = some b := by cases b <;> rfl

theorem ofName?_name (b : BuildType) : ofName? b.name = some b := by cases b <;> rfl

end BuildType

/-! ## Profiles -/

/-- The executables and conventions of one family of compilers. -/
structure ToolchainProfile where
  platform : Platform
  /-- The C compiler, if C can be compiled. -/
  cCompiler : Option String
  /-- The C++ compiler, if C++ can be compiled. -/
  cxxCompiler : Option String
  /-- What links executables and shared libraries. -/
  linker : String
  /-- What makes static libraries. -/
  archiver : String
  /-- What is appended to the path of a source to name its object. -/
  objectExtension : String
  /-- What stands in front of a directory of headers. -/
  includeFlag : String
  /-- What stands in front of a definition. -/
  defineFlag : String
  outputStyle : OutputStyle
  /-- The flag that makes the linker produce a shared library. -/
  sharedFlag : String
  depsStyle : DepsStyle
  /-- The flags of a debug build. -/
  debugFlags : List String
  /-- The flags of a release build. -/
  releaseFlags : List String
  deriving DecidableEq, Repr

namespace ToolchainProfile

/-- A profile with the conventions of the GNU tools, whose C++ compiler also links. -/
def gnu (platform : Platform) (cc cxx : String) : ToolchainProfile where
  platform := platform
  cCompiler := some cc
  cxxCompiler := some cxx
  linker := cxx
  archiver := "ar"
  objectExtension := ".o"
  includeFlag := "-I"
  defineFlag := "-D"
  outputStyle := .gnu
  sharedFlag := "-shared"
  depsStyle := .gcc
  debugFlags := ["-g"]
  releaseFlags := ["-O2"]

/-- The profile of a family with its usual executables. -/
def ofPlatform : Platform → ToolchainProfile
  | .gcc => gnu .gcc "gcc" "g++"
  | .clang => gnu .clang "clang" "clang++"
  | .msvc =>
    { platform := .msvc
      cCompiler := some "cl"
      cxxCompiler := some "cl"
      linker := "link"
      archiver := "lib"
      objectExtension := ".obj"
      includeFlag := "/I"
      defineFlag := "/D"
      outputStyle := .msvc
      sharedFlag := "/DLL"
      depsStyle := .msvc
      debugFlags := ["/Od", "/Zi"]
      releaseFlags := ["/O2"] }

/-- The compiler that the profile names for a language. -/
def compiler? (t : ToolchainProfile) : Language → Option String
  | .c => t.cCompiler
  | .cxx => t.cxxCompiler

/-- The compiler for a language. A missing or empty name means that there is none. -/
def compiler (t : ToolchainProfile) (l : Language) : Except GenerationError String :=
  match t.compiler? l with
  | some c => if c = "" then .error (.unsupportedToolchain l.name) else .ok c
  | none => .error (.unsupportedToolchain l.name)

theorem compiler_eq_ok_iff {t : ToolchainProfile} {l : Language} {c : String} :
    t.compiler l = .ok c ↔ t.compiler? l = some c ∧ c ≠ "" := by
  unfold compiler
  cases h : t.compiler? l with
  | none => simp
  | some d =>
    by_cases hd : d = ""
    · subst hd; simp
    · simp only [hd, if_false, Except.ok.injEq, Option.some.injEq]
      exact ⟨fun heq => ⟨heq, heq ▸ hd⟩, fun heq => heq.1⟩

/-- The flags that a build type adds to every compilation. -/
def buildTypeFlags (t : ToolchainProfile) : BuildType → List String
  | .debug => t.debugFlags
  | .release => t.releaseFlags

/-- A directory of headers as an argument. -/
def includeArg (t : ToolchainProfile) (dir : String) : String := t.includeFlag ++ dir

/-- A definition as an argument. -/
def defineArg (t : ToolchainProfile) (define : String) : String := t.defineFlag ++ define

/-! ## Command lines -/

/-- The command that compiles a source. -/
def compileCommand (t : ToolchainProfile) (l : Language) : Except GenerationError String := do
  let cc ← Ninja.escape (← t.compiler l)
  let args := t.depsStyle.compileArgs
  let out := t.outputStyle.compileOutput
  match t.platform with
  | .msvc => pure (cc ++ " /nologo " ++ args ++ " $flags $incs $defines /c $in " ++ out)
  | _ => pure (cc ++ " " ++ args ++ " $flags $incs $defines -c $in " ++ out)

/-- The command that links objects. -/
def linkCommand (t : ToolchainProfile) : Except GenerationError String := do
  let ld ← Ninja.escape t.linker
  let out := t.outputStyle.linkOutput
  match t.platform with
  | .msvc => pure (ld ++ " /nologo $ldflags " ++ out ++ " $in $libs")
  | _ => pure (ld ++ " " ++ out ++ " $in $libs $ldflags")

/-- The command that makes a static library of objects. -/
def archiveCommand (t : ToolchainProfile) : Except GenerationError String := do
  let ar ← Ninja.escape t.archiver
  match t.platform with
  | .msvc => pure (ar ++ " /nologo " ++ t.outputStyle.linkOutput ++ " $in")
  | _ => pure (ar ++ " rcs $out $in")

/-- The command that writes a source including every input. -/
def unityCommand (t : ToolchainProfile) : String :=
  match t.platform with
  | .msvc => "cmd /c (for %f in ($in) do @echo #include \"%f\") > $out"
  | _ => "printf '#include \"%s\"\\n' $in > $out"

end ToolchainProfile

/-! ## The C++ compiler beside a C compiler -/

/-- Whether a text ends in another. -/
def endsWith (s ending : List Char) : Bool := ending.isSuffixOf s

/-- The C++ compiler that belongs to a C compiler: `g++` to `gcc`, `c++` to a `cc` that is a whole
name or the last part of one, and otherwise the name with `++` appended. -/
def inferCxx (cc : String) : String :=
  let cs := cc.toList
  let plus := ['+', '+']
  if endsWith cs ['g', 'c', 'c'] then String.ofList (cs.dropLast.dropLast ++ plus)
  else if endsWith cs ['c', 'l', 'a', 'n', 'g'] then String.ofList (cs ++ plus)
  else if cs = ['c', 'c'] ∨ endsWith cs ['/', 'c', 'c'] ∨ endsWith cs ['\\', 'c', 'c'] ∨
      endsWith cs ['-', 'c', 'c'] then String.ofList (cs.dropLast ++ plus)
  else String.ofList (cs ++ plus)

end NinjaGen
