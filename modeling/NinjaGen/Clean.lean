import NinjaGen.Failure

/-!
# Removing what was generated

Cleaning removes the build root and the generated file. A build root that is the project root or
lies outside of it is refused, and then nothing is removed.

* `isRemovable` says which build roots may be removed.
* `clean` removes and says what it removed; a refusal leaves the file tree as it was
  (`clean_of_not_isRemovable`).
-/

namespace NinjaGen

/-- Whether a build root is a directory strictly inside the project, which it reaches without
`..`. -/
def isRemovable (root buildRoot : Path) : Bool :=
  let directory := root.join buildRoot
  !buildRoot.components.contains .parent && directory.startsWith root &&
    directory.components.filter (· ≠ .current) ≠ root.components.filter (· ≠ .current)

/-- The tree without the directory that a path leads to, and whether it led to anything. -/
def removeDirectoryIfThere (t : FileTree) (p : Path) : FileTree × Except Failure Bool :=
  if t.isThere p then
    match t.removeDirectory p with
    | (t, .ok ()) => (t, .ok true)
    | (t, .error e) => (t, .error (.directoryKept p e))
  else (t, .ok false)

/-- The tree without the file that a path leads to, and whether it led to one. -/
def removeFileIfThere (t : FileTree) (p : Path) : FileTree × Except Failure Bool :=
  if t.isFile p then
    match t.removeFile p with
    | (t, .ok ()) => (t, .ok true)
    | (t, .error e) => (t, .error (.fileKept p e))
  else (t, .ok false)

/-- The tree without the build root and the generated file, and the paths of those that were
there. -/
def clean (t : FileTree) (root buildRoot output : Path) : FileTree × Except Failure (List Path) :=
  if isRemovable root buildRoot then
    let directory := root.join buildRoot
    match removeDirectoryIfThere t directory with
    | (t, .error e) => (t, .error e)
    | (t, .ok gone) =>
      match removeFileIfThere t output with
      | (t, .error e) => (t, .error e)
      | (t, .ok fileGone) =>
        (t, .ok ((if gone then [directory] else []) ++ if fileGone then [output] else []))
  else (t, .error (.buildRootRefused buildRoot))

theorem clean_of_not_isRemovable {t : FileTree} {root buildRoot output : Path}
    (h : isRemovable root buildRoot = false) :
    clean t root buildRoot output = (t, .error (.buildRootRefused buildRoot)) := by
  simp [clean, h]

end NinjaGen
