import NinjaGen.CommandLine.Arguments
import NinjaGen.Data.Json
import NinjaGen.Text.Terminal

/-!
# Running a command

A run takes the state of the file system to another one, and shows something.

* `report` is what the user is told of a failure.
* `run` runs the program with its arguments.
-/

namespace NinjaGen.CommandLine

/-- What a run leaves behind. -/
structure Outcome where
  tree : FileTree
  /-- The exit status. -/
  status : Nat := 0
  stdout : String := ""
  stderr : String := ""
  /-- Why the run failed, if it did. -/
  failure : Option Failure := none

/-- The line for a notice, in a form that does not steer the terminal. -/
def noticeLine : Notice → String
  | .info text => " INFO " ++ Text.visible text ++ "\n"
  | .warning text => " WARN " ++ Text.visible text ++ "\n"

/-- The lines for notices. -/
def noticeLines (ns : List Notice) : String := String.join (ns.map noticeLine)

/-- What the user is told of a failure. -/
def report (colour : Bool) : Failure → String
  | .generation e =>
    (e.diagnostic.suggest "Run `dockyard generate --verbose` for more details").format colour
  | .descriptor path e =>
    String.join ((Failure.descriptor path e).chain.map fun line => "  × " ++ line ++ "\n") ++
      "  help: Each target is a [[target]] table with at least `name`, `output` and `sources`\n"
  | e => "error: " ++ ": ".intercalate (e.chain ++ e.reason?.toList) ++ "\n"

/-- The run that failed after notices. -/
def failed (tree : FileTree) (colour : Bool) (notices : List Notice) (e : Failure) : Outcome :=
  { tree := tree
    status := 1
    stderr := noticeLines notices ++ report colour e
    failure := some e }

/-- The line for a build file that was written. -/
def generatedLine (w : Workspace) (p : Project) (s : GenerateSummary) : String :=
  "   Generated " ++ (s.output.relativeTo w.root).text ++ " (" ++ toString s.targets ++
    " targets, " ++ toString s.steps ++ " build steps, " ++ p.profile.platform.name ++ " " ++
    p.options.buildType.name ++ ")\n"

/-- The lines for what was removed. -/
def removedLines (w : Workspace) (removed : List Path) : String :=
  if removed = [] then "     Nothing to clean\n"
  else String.join (removed.map fun p => "     Removed " ++ (p.relativeTo w.root).text ++ "\n")

/-- The run of a command in a workspace. -/
def runCommand (t : FileTree) (w : Workspace) (colour : Bool) : Command → Outcome
  | .generate overrides toStdout =>
    match Project.load t w overrides with
    | .error e => failed t colour [] e
    | .ok p =>
      if toStdout then
        let text := p.render t
        match text.outcome with
        | .error e => failed t colour text.notices e
        | .ok s => { tree := t, stdout := s, stderr := noticeLines text.notices }
      else
        let (t, summary) := p.generate t
        match summary.outcome with
        | .error e => failed t colour summary.notices e
        | .ok s => { tree := t, stderr := noticeLines summary.notices ++ generatedLine w p s }
  | .plan overrides =>
    match Project.load t w overrides with
    | .error e => failed t colour [] e
    | .ok p =>
      let plan := p.plan t
      match plan.outcome with
      | .error e => failed t colour plan.notices e
      | .ok plan' =>
        { tree := t, stdout := plan'.toValue.json ++ "\n", stderr := noticeLines plan.notices }
  | .clean overrides =>
    match Project.load t w overrides with
    | .error e => failed t colour [] e
    | .ok p =>
      match p.clean t with
      | (t, .error e) => failed t colour [] e
      | (t, .ok removed) => { tree := t, stderr := removedLines w removed }

/-- The version of the program. -/
def versionLine : String := "dockyard 0.1.0\n"

/-- How the program is used. -/
def usage : String :=
  "Usage: dockyard [OPTIONS] <COMMAND>\n\n" ++
  "Commands:\n" ++
  "  generate  Write build.ninja for every target in the project\n" ++
  "  plan      Print the expanded build steps as JSON\n" ++
  "  clean     Remove the build root and the generated file\n"

/-- Where a run takes place. -/
structure Surroundings where
  /-- The directory in which the program was started. -/
  directory : Path
  /-- The directory of the user's configuration. -/
  home : Option Path
  /-- The family of compilers that the environment asks for. -/
  profile : Option String

/-- The run of the program with arguments. -/
def run (t : FileTree) (s : Surroundings) (args : List String) : Outcome :=
  match Invocation.parse s.profile args with
  | .error .misuse => { tree := t, status := 2, stderr := usage }
  | .error .version => { tree := t, stdout := versionLine }
  | .error .help => { tree := t, stdout := usage }
  | .ok i =>
    let root := match i.directory with
      | some dir => s.directory.join dir
      | none => s.directory
    runCommand t ⟨root, s.home⟩ i.colour i.command

end NinjaGen.CommandLine
