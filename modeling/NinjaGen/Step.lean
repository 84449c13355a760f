import NinjaGen.Language

/-!
# Build steps

A step produces one file from others: a unity source from its members, an object from a source, an
executable or a library from objects.

* `UnityStep`, `CompileStep`, `LinkStep` and `ArchiveStep` are the kinds, and `Step` is any of them.
* `Step.output`, `Step.inputs` and `Step.target` say what a step produces, what it reads and for
  which target.
* `Rule` names the command that runs a step (`Step.rule`).
-/

namespace NinjaGen

/-- A unity source is written. -/
structure UnityStep where
  output : Path
  /-- The sources that it includes, in order. -/
  members : List Path
  /-- The language of every member. -/
  lang : Language
  target : String
  deriving DecidableEq, Repr

/-- A source is compiled. -/
structure CompileStep where
  source : Path
  /-- The object. -/
  output : Path
  lang : Language
  flags : List String
  includeDirs : List String
  defines : List String
  target : String
  deriving DecidableEq, Repr

/-- What a linker is asked for. -/
inductive LinkMode
  | executable
  | sharedLib
  deriving DecidableEq, Repr

namespace LinkMode

/-- The word for a mode in data. -/
def word : LinkMode → String
  | executable => "executable"
  | sharedLib => "shared_lib"

/-- The mode that a word in data means. -/
def ofWord? : String → Option LinkMode
  | "executable" => some executable
  | "shared_lib" => some sharedLib
  | _ => none

theorem ofWord?_word (m : LinkMode) : ofWord? m.word = some m := by cases m <;> rfl

end LinkMode

/-- Objects are linked. -/
structure LinkStep where
  objects : List Path
  output : Path
  /-- Files that the step depends on without naming them on its command line. -/
  implicitInputs : List Path
  libs : List String
  flags : List String
  mode : LinkMode
  target : String
  deriving DecidableEq, Repr

/-- A static library is made of objects. -/
structure ArchiveStep where
  objects : List Path
  output : Path
  target : String
  deriving DecidableEq, Repr

/-- The commands that run steps. -/
inductive Rule
  | compile (lang : Language)
  | link
  | archive
  | unity
  deriving DecidableEq, Repr

namespace Rule

/-- The rules, in the order in which a build file declares them. -/
def all : List Rule := [compile .c, compile .cxx, link, archive, unity]

theorem mem_all (r : Rule) : r ∈ all := by
  cases r with
  | compile l => cases l <;> decide
  | link | archive | unity => decide

/-- The name of a rule in a build file. -/
def name : Rule → String
  | compile .c => "cc"
  | compile .cxx => "cxx"
  | link => "link"
  | archive => "ar"
  | unity => "unity"

end Rule

/-- A step of a build. -/
inductive Step
  | unity (s : UnityStep)
  | compile (s : CompileStep)
  | link (s : LinkStep)
  | archive (s : ArchiveStep)
  deriving DecidableEq, Repr

/-- The wording for the compilation of a source. -/
def CompileStep.wording (source : Path) (target : String) : String :=
  "compile of `" ++ source.text ++ "` in target `" ++ target ++ "`"

namespace Step

/-- The file that the step produces. -/
def output : Step → Path
  | unity s => s.output
  | compile s => s.output
  | link s => s.output
  | archive s => s.output

/-- The files that the step reads. -/
def inputs : Step → List Path
  | unity s => s.members
  | compile s => [s.source]
  | link s => s.objects ++ s.implicitInputs
  | archive s => s.objects

/-- The name of the target for which the step is run. -/
def target : Step → String
  | unity s => s.target
  | compile s => s.target
  | link s => s.target
  | archive s => s.target

/-- The command that runs the step. -/
def rule : Step → Rule
  | unity _ => .unity
  | compile s => .compile s.lang
  | link _ => .link
  | archive _ => .archive

/-- Whether the step compiles a source. -/
def isCompile : Step → Bool
  | compile _ => true
  | _ => false

/-- Whether the step produces an artifact of a target. -/
def isFinal : Step → Bool
  | link _ | archive _ => true
  | _ => false

/-- The step in words, for reports. -/
def wording : Step → String
  | unity s => "unity source step of target `" ++ s.target ++ "`"
  | compile s => CompileStep.wording s.source s.target
  | link s => "link step of target `" ++ s.target ++ "`"
  | archive s => "archive step of target `" ++ s.target ++ "`"

end Step

end NinjaGen
