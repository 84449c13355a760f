import NinjaGen.Diagnostic
import NinjaGen.Text.Quoted

/-!
# What can go wrong while generating

Every cause is fatal: the first one ends the generation, and nothing is written.

* `GenerationError` lists the causes; one of them wraps another in the name of a target.
* `GenerationError.inTarget` attaches the name of a target once: an error that names its targets
  already stays as it is (`inTarget_inTarget`, `root_inTarget`).
* `GenerationError.root` is the cause without the targets around it.
* `GenerationError.message` and `GenerationError.diagnostic` are its wordings, short and long.
-/

namespace NinjaGen

/-- Why targets could not be turned into a build file. -/
inductive GenerationError
  /-- A placeholder has no value. -/
  | unresolvedVariable (token template : String)
  /-- A text that has to stand on one line holds a line break. -/
  | invalidText (text : String)
  /-- Two steps produce the same file. -/
  | duplicateOutput (path first second : String)
  /-- The toolchain has no compiler for a language. -/
  | unsupportedToolchain (languageClass : String)
  /-- A source is in no language that can be compiled. -/
  | unrecognizedSource (path : String)
  /-- A target has no sources. -/
  | emptyTarget (target : String)
  /-- An error that arose in the target of that name. -/
  | withinTarget (target : String) (source : GenerationError)
  /-- The generated file could not be written, for the reason the system gave. -/
  | io (path : Path) (reason : String)
  deriving DecidableEq, Repr

namespace GenerationError

/-- The error with the name of the target in which it arose. -/
def inTarget (target : String) : GenerationError → GenerationError
  | withinTarget inner source => withinTarget inner source
  | duplicateOutput path first second => duplicateOutput path first second
  | e => withinTarget target e

/-- The cause without the targets around it. -/
def root : GenerationError → GenerationError
  | withinTarget _ source => source.root
  | e => e

theorem inTarget_inTarget (a b : String) (e : GenerationError) :
    (e.inTarget a).inTarget b = e.inTarget a := by
  cases e <;> rfl

@[simp] theorem root_inTarget (target : String) (e : GenerationError) :
    (e.inTarget target).root = e.root := by
  cases e <;> rfl

/-- The wording on one line. -/
def message : GenerationError → String
  | unresolvedVariable token template =>
    "unresolved variable `\x7b" ++ token ++ "\x7d` in `" ++ template ++ "`"
  | invalidText text => "text cannot contain a line break: " ++ Text.quoted text
  | duplicateOutput path _ _ => "multiple steps produce `" ++ path ++ "`"
  | unsupportedToolchain languageClass =>
    "toolchain profile has no compiler for " ++ languageClass ++ " sources"
  | unrecognizedSource path => "cannot determine the language of source `" ++ path ++ "`"
  | emptyTarget target => "target `" ++ target ++ "` has no sources"
  | withinTarget target source => "in target `" ++ target ++ "`: " ++ source.message
  | io path _ => "failed to write `" ++ path.text ++ "`"

/-- The wording with context and suggestions. -/
def diagnostic : GenerationError → Diagnostic
  | unresolvedVariable token template =>
    { severity := .error
      message := "no binding for placeholder `\x7b" ++ token ++ "\x7d`"
      context := ["while expanding `" ++ template ++ "`"]
      suggestions :=
        ["Define it under [vars] in .dockyard/config.toml or pass `--var " ++ token ++ "=...`"] }
  | invalidText text =>
    { severity := .error
      message := "text destined for build.ninja contains a line break"
      context := ["offending text: " ++ Text.quoted text]
      suggestions := ["Remove newlines from paths, flags and defines"] }
  | duplicateOutput path first second =>
    { severity := .error
      message := "`" ++ path ++ "` is produced more than once"
      context := ["first produced by " ++ first, "also produced by " ++ second]
      suggestions :=
        ["Give each target a distinct output path",
          "Make sure no source is listed in two targets"] }
  | unsupportedToolchain languageClass =>
    { severity := .error
      message := "the selected toolchain cannot compile " ++ languageClass ++ " sources"
      suggestions :=
        ["Configure a " ++ languageClass ++
          " compiler under [toolchain] in .dockyard/config.toml"] }
  | unrecognizedSource path =>
    { severity := .error
      message := "`" ++ path ++ "` is not a C or C++ source"
      context := ["recognized extensions: .c, .cc, .cpp, .cxx, .c++, .C"]
      suggestions := ["Remove headers and other non-source files from `sources`"] }
  | emptyTarget target =>
    { severity := .error
      message := "target `" ++ target ++ "` has no sources"
      suggestions := ["Check that the `sources` globs match existing files"] }
  | withinTarget target source => source.diagnostic.within ("in target `" ++ target ++ "`")
  | io path reason =>
    { severity := .error
      message := "failed to write `" ++ path.text ++ "`"
      context := [reason]
      location := some path }

end GenerationError

end NinjaGen
