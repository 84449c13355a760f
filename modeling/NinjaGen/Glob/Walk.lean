import NinjaGen.Failure
import NinjaGen.Path.Relative

/-!
# Files that patterns match

A list of sources names files, and patterns for files.

* `Glob.walk` finds what segments match below a directory, and `Glob.matchedFiles` the files that a
  pattern matches.
* `Glob.files` expands a list: a plain path stands for itself, whether or not there is such a file;
  a pattern stands for the files that it matches, in the order of their paths. What is there
  already is not repeated (`Glob.addNew`).
-/

namespace NinjaGen.Glob

/-! ## Matching -/

/-- The names directly in the directory that a path leads to. -/
def childNames (t : FileTree) (p : Path) : List String :=
  match t.locate p with
  | .ok l => if t.isDirectory p then t.childNames l else []
  | .error _ => []

/-- The names that lead to the entries below the directory that a path leads to. -/
def descendantNames (t : FileTree) (p : Path) : List (List String) :=
  match t.locate p with
  | .ok l => if t.isDirectory p then (t.descendants l).map (·.1) else []
  | .error _ => []

/-- The names in a directory that a pattern stands for. The directory itself and the one above it
are among them only if the pattern begins with a dot. -/
def matchedNames (t : FileTree) (p : Path) (pattern : Pattern) : List String :=
  let special := if pattern.head? = some (.exactly '.') then [".", ".."] else []
  (childNames t p ++ if t.isDirectory p then special else []).filter fun n =>
    pattern.accepts n.toList

/-- The path continued by names. -/
def extend (p : Path) (names : List String) : Path := names.foldl (fun p n => p.join ⟨n⟩) p

/-- The paths below `p` that segments match. Segments for any directories lead through every
directory below `p`, and on from there only to names in it. -/
def walk (t : FileTree) (p : Path) : List Segment → List Path
  | [] => [p]
  | .name text :: rest =>
    let next := p.join ⟨String.ofList text⟩
    let found :=
      if text = ['.'] ∨ text = ['.', '.'] then t.isDirectory p else t.isThere next
    if found then walk t next rest else []
  | .pattern pattern :: rest =>
    (matchedNames t p pattern).flatMap fun n => walk t (p.join ⟨n⟩) rest
  | [.anyDirectories] =>
    ((descendantNames t p).map (extend p)).filter t.isDirectory
  | .anyDirectories :: .anyDirectories :: rest => walk t p (.anyDirectories :: rest)
  | .anyDirectories :: segment :: rest =>
    ((descendantNames t p).filter fun names => (names.getLast?.map segment.accepts).getD false)
      |>.flatMap fun names => walk t (extend p names) rest

/-- The pieces of a pattern for absolute paths, below the root directory. A slash at the end
separates nothing. -/
def piecesBelowRoot (pattern : Path) : List (List Char) :=
  match pattern.pieces with
  | [[], []] => []
  | [] :: pieces => if pieces.getLast? = some [] then pieces.dropLast else pieces
  | pieces => pieces

/-- Whether the pattern asks for directories by a slash at its end. -/
def wantsDirectory (pattern : Path) : Bool := pattern.text.toList.getLast? = some '/'

/-- The files that a pattern for absolute paths matches. -/
def matchedFiles (t : FileTree) (pattern : Path) : Except PatternError (List Path) := do
  let segments ← (piecesBelowRoot pattern).mapM Segment.parse
  if wantsDirectory pattern then pure []
  else pure ((walk t ⟨"/"⟩ segments).filter t.isFile)

/-! ## Lists of sources -/

/-- The paths whose components have not been `seen`, each of them once. -/
def unseen (seen : List (List Component)) : List Path → List Path
  | [] => []
  | p :: r =>
    let components := p.components
    if components ∈ seen then unseen seen r else p :: unseen (components :: seen) r

/-- The paths with those of more that are not there yet. -/
def addNew (found more : List Path) : List Path := found ++ unseen (found.map (·.components)) more

/-- The files under `base` that a pattern matches, seen from there and in order. -/
def patternFiles (t : FileTree) (base : Path) (pattern : String) :
    Except PatternError (List Path) :=
  (matchedFiles t (base.join ⟨pattern⟩)).map fun ps => Path.sort (ps.map (·.relativeTo base))

/-- The paths for which an entry of a list of sources stands. A pattern without files is worth a
warning. -/
def entryFiles (t : FileTree) (base : Path) (entry : String) : Logged (List Path) :=
  if isPattern entry then
    match patternFiles t base entry with
    | .error e => .fail (.invalidPattern entry e)
    | .ok [] => ⟨[.warning ("pattern `" ++ entry ++ "` matched no files")], .ok []⟩
    | .ok ps => .ok ps
  else .ok [⟨entry⟩]

/-- The paths for which a list of sources stands, after those that have been `found`. -/
def filesFrom (t : FileTree) (base : Path) (found : List Path) : List String → Logged (List Path)
  | [] => .ok found
  | entry :: r => do
    let ps ← entryFiles t base entry
    filesFrom t base (addNew found ps) r

/-- The paths for which a list of sources stands. -/
def files (t : FileTree) (base : Path) (entries : List String) : Logged (List Path) :=
  filesFrom t base [] entries

end NinjaGen.Glob
