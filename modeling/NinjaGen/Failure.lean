import NinjaGen.Data.Value
import NinjaGen.FileTree
import NinjaGen.GenerationError
import NinjaGen.Glob.Pattern
import NinjaGen.Toml.Table
import NinjaGen.Toolchain

/-!
# What can go wrong in a project

A run can fail for reasons besides those of the generation: files that cannot be read or do not say
what they should, and requests that are refused.

* `Failure` lists the causes. `Failure.chain` is the wording of one from the outside inwards, and
  `Failure.reason?` is the wording of what lies beneath: a file system, or a notation for data.
* `Logged` is the outcome of something that also gives notice on the way; notices that were given
  before a failure remain.
-/

namespace NinjaGen

/-! ## Files that do not say what they should -/

/-- Why the text of a file was refused. -/
inductive ContentError
  /-- It is not written in the notation. -/
  | malformed (e : Toml.Error)
  /-- A value in it has another form than the one that is needed. -/
  | mismatch
  /-- A table in it lacks a field. -/
  | missingField (name : String)
  deriving DecidableEq, Repr

namespace ContentError

/-- The error for a value that was refused. -/
def ofDecode : DecodeError → ContentError
  | .mismatch => mismatch
  | .missingField name => missingField name

/-- The wording of an error. -/
def message : ContentError → String
  | malformed e => e.message
  | mismatch => "a value has the wrong form"
  | missingField name => "missing field `" ++ name ++ "`"

end ContentError

/-! ## Failures -/

/-- Why a run failed. -/
inductive Failure
  /-- The targets could not be turned into a build file. -/
  | generation (e : GenerationError)
  /-- A descriptor does not say what it should. -/
  | descriptor (path : Path) (e : ContentError)
  /-- A configuration file could not be read. -/
  | configUnreadable (path : Path) (e : FileError)
  /-- A configuration file does not say what it should. -/
  | configInvalid (path : Path) (e : ContentError)
  /-- The configuration names a toolchain that is not known. -/
  | unknownProfile (name : String)
  /-- There is no build root. -/
  | emptyBuildRoot
  /-- A file could not be read. -/
  | unreadable (path : Path) (e : FileError)
  /-- A pattern for sources is none. -/
  | invalidPattern (pattern : String) (e : Glob.PatternError)
  /-- A directory could not be searched. -/
  | unsearchable (root : Path) (e : FileError)
  /-- A project has no descriptor. -/
  | noDescriptors (root : Path)
  /-- Two descriptors declare targets of one name, or one does twice. -/
  | declaredTwice (target : String) (first second : Path)
  /-- The build root is not a directory that may be removed. -/
  | buildRootRefused (buildRoot : Path)
  /-- A directory could not be removed. -/
  | directoryKept (path : Path) (e : FileError)
  /-- A file could not be removed. -/
  | fileKept (path : Path) (e : FileError)
  deriving DecidableEq, Repr

namespace Failure

/-- The wording of a failure, from the outside inwards. -/
def chain : Failure → List String
  | generation e => [e.message]
  | descriptor path e => ["invalid descriptor `" ++ path.text ++ "`: " ++ e.message]
  | configUnreadable path _ => ["failed to read config file: " ++ path.text]
  | configInvalid path _ => ["failed to parse config file: " ++ path.text]
  | unknownProfile name => ["invalid [toolchain] profile", Platform.unknownName name]
  | emptyBuildRoot => ["build_dir must not be empty"]
  | unreadable path _ => ["failed to read file: " ++ path.text]
  | invalidPattern pattern _ => ["invalid glob pattern: " ++ pattern]
  | unsearchable root _ => ["failed to walk " ++ root.text]
  | noDescriptors root =>
    ["no BUILD.toml found under " ++ root.text ++
      "\nhelp: Add a BUILD.toml with at least one [[target]] table to the project"]
  | declaredTwice target first second =>
    ["target `" ++ target ++ "` is declared in both " ++ first.text ++ " and " ++ second.text ++
      "\nhelp: Target names must be unique across all BUILD.toml files"]
  | buildRootRefused buildRoot =>
    ["refusing to remove build root `" ++ buildRoot.text ++
      "`: it must be a directory inside the project"]
  | directoryKept path _ => ["failed to remove directory: " ++ path.text]
  | fileKept path _ => ["failed to remove file: " ++ path.text]

/-- The wording of what lies beneath a failure. -/
def reason? : Failure → Option String
  | configUnreadable _ e | unreadable _ e | unsearchable _ e | directoryKept _ e | fileKept _ e =>
    some e.message
  | configInvalid _ e => some ("TOML parse error: " ++ e.message)
  | invalidPattern _ e => some e.message
  | _ => none

end Failure

/-! ## Notices -/

/-- Something that the user is told on the way. -/
inductive Notice
  | info (text : String)
  | warning (text : String)
  deriving DecidableEq, Repr

/-- The outcome of something that gives notice on the way. -/
structure Logged (α : Type) where
  /-- The notices, in the order in which they were given. -/
  notices : List Notice
  outcome : Except Failure α

namespace Logged

/-- Success without a notice. -/
def ok {α : Type} (a : α) : Logged α := ⟨[], .ok a⟩

/-- Failure without a notice. -/
def fail {α : Type} (e : Failure) : Logged α := ⟨[], .error e⟩

/-- An outcome without a notice. -/
def ofExcept {α : Type} (x : Except Failure α) : Logged α := ⟨[], x⟩

/-- One thing after another; a failure of the first is the outcome. -/
def andThen {α β : Type} (x : Logged α) (f : α → Logged β) : Logged β :=
  match x.outcome with
  | .error e => ⟨x.notices, .error e⟩
  | .ok a =>
    let y := f a
    ⟨x.notices ++ y.notices, y.outcome⟩

instance : Monad Logged where
  pure := ok
  bind := andThen

theorem outcome_bind {α β : Type} (x : Logged α) (f : α → Logged β) :
    (x >>= f).outcome = x.outcome.bind fun a => (f a).outcome := by
  show (andThen x f).outcome = _
  unfold andThen
  cases x.outcome <;> rfl

@[simp] theorem outcome_pure {α : Type} (a : α) : (pure a : Logged α).outcome = .ok a := rfl

end Logged

end NinjaGen
