import NinjaGen.CommandLine.Run

/-!
# The program

The program takes a picture of the directories concerned, runs on it, and carries the changes of
the picture over to the file system.

* `Snapshot.below` takes the picture of a directory; only descriptors and configuration files are
  read.
* `Snapshot.apply` carries changes over.
-/

namespace NinjaGen.Snapshot

/-- Whether the text of a file of that name is needed. -/
def isRead (name : String) : Bool := name = Descriptor.fileName || name = "config.toml"

/-- The entry at a location of the file system. -/
def entryAt (l : Location) : IO (Option Entry) := do
  let here ← IO.currentDir
  let path := here / (Path.ofLocation l).text
  if ← path.isDir then pure (some .directory)
  else if ← path.pathExists then
    if isRead (l.getLast?.getD "") then pure (some (.file (← IO.FS.readFile path)))
    else pure (some (.file ""))
  else pure none

/-- The entries below a directory of the file system. -/
partial def below (l : Location) : IO (List (Location × Entry)) := do
  let here ← IO.currentDir
  let mut found := []
  for e in ← (here / (Path.ofLocation l).text).readDir do
    let m := l ++ [e.fileName]
    match ← entryAt m with
    | none => pure ()
    | some .directory => found := found ++ (m, .directory) :: (← below m)
    | some entry => found := found ++ [(m, entry)]
  pure found

/-- The entries on the way to a location of the file system, and the one at it. -/
def onWay (l : Location) : IO (List (Location × Entry)) := do
  let mut found := []
  for n in List.range l.length do
    if let some e ← entryAt (l.take (n + 1)) then found := found ++ [(l.take (n + 1), e)]
  pure found

/-- The names in a path, where `..` leads up. -/
def namesOf (p : Path) : Location :=
  p.components.foldl (fun l c =>
    match c with
    | .normal name => l ++ [name]
    | .parent => l.dropLast
    | _ => l) []

/-- The tree of entries, each of which comes after the directory in which it is. -/
def toTree (entries : List (Location × Entry)) : FileTree :=
  entries.foldl (fun t e => t.put e.1 e.2) .empty

/-- The changes of a tree, carried over to the file system. -/
def apply (before after : FileTree) : IO Unit := do
  for (l, e) in before.entries do
    if (after.at? l).isNone && (after.at? l.dropLast).isSome then
      match e with
      | .file _ => IO.FS.removeFile (Path.ofLocation l).text
      | .directory => IO.FS.removeDirAll (Path.ofLocation l).text
  for (l, e) in after.entries do
    if e = .directory && (before.at? l).isNone then IO.FS.createDirAll (Path.ofLocation l).text
  for (l, e) in after.entries do
    if before.at? l ≠ some e then
      if let .file text := e then
        let unfinished := (Path.ofLocation l).text ++ ".tmp"
        IO.FS.writeFile unfinished text
        IO.FS.rename unfinished (Path.ofLocation l).text

/-- The picture for a run with those arguments. -/
def forRun (s : CommandLine.Surroundings) (args : List String) : IO FileTree := do
  match CommandLine.Invocation.parse s.profile args with
  | .error _ => pure .empty
  | .ok i =>
    let root := (i.directory.map s.directory.join).getD s.directory
    let workspace : Workspace := ⟨root, s.home⟩
    let settings ← match workspace.userConfig with
      | some path => onWay (namesOf path)
      | none => pure []
    let around ← onWay (namesOf root)
    let inside ← if around.any (·.1 = namesOf root) then below (namesOf root) else pure []
    let known := settings ++ around ++ inside
    let overrides := match i.command with
      | .generate o _ | .plan o | .clean o => o
    match Project.load (toTree known) workspace overrides with
    | .error _ => pure (toTree known)
    | .ok p =>
      let target ← onWay (namesOf p.output)
      pure (toTree (known ++ target))

end NinjaGen.Snapshot

/-- The program. -/
def main (args : List String) : IO UInt32 := do
  let here ← IO.currentDir
  let home ← IO.getEnv "HOME"
  let surroundings : NinjaGen.CommandLine.Surroundings :=
    { directory := ⟨here.toString⟩
      home := home.map fun h => NinjaGen.Path.join ⟨h⟩ ⟨".dockyard"⟩
      profile := ← IO.getEnv "DOCKYARD_PROFILE" }
  let before ← NinjaGen.Snapshot.forRun surroundings args
  let outcome := NinjaGen.CommandLine.run before surroundings args
  NinjaGen.Snapshot.apply before outcome.tree
  IO.print outcome.stdout
  IO.eprint outcome.stderr
  pure outcome.status.toUInt32
