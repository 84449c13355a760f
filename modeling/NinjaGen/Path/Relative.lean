import NinjaGen.Path.Basic

/-!
# Relative paths

The way from one directory to a path, by components alone: nothing is looked up.

* `Path.divergence` drops the common start of two lists of components (`divergence_append`).
* `Path.stepsFrom` is the list of components of the way, if there is one: below the directory it
  is what follows the directory (`stepsFrom_append`).
* `Path.relativeTo` is the path with those steps, or the path itself where there is no way.
-/

namespace NinjaGen

namespace Path

/-- What is left of two lists of components after their common start. -/
def divergence : (base path : List Component) → List Component × List Component
  | b :: base, c :: path => if b = c then divergence base path else (b :: base, c :: path)
  | base, path => (base, path)

/-- The way from `base` to `path` where they have parted: up once for each component of `base`,
then along `path`. Nothing leads back through a `..`, and a `.` is passed by without a step. -/
def detour : (base path : List Component) → Option (List Component)
  | [], path => some path
  | base, [] => some (base.map fun _ => .parent)
  | .parent :: _, _ => none
  | .current :: base, c :: path => (detour base path).map (c :: ·)
  | _ :: base, path => some (.parent :: base.map (fun _ => .parent) ++ path)

/-- The components that lead from a directory to a path. -/
def stepsFrom (base path : List Component) : Option (List Component) :=
  detour (divergence base path).1 (divergence base path).2

theorem divergence_append (base path : List Component) :
    divergence base (base ++ path) = ([], path) := by
  induction base with
  | nil => cases path <;> rfl
  | cons b base ih => simp [divergence, ih]

theorem stepsFrom_append (base path : List Component) :
    stepsFrom base (base ++ path) = some path := by
  simp [stepsFrom, divergence_append, detour]

/-- `p` as seen from the directory `base`. A path that starts at the root is not seen from one that
does not, nor the other way round; it then stands as written. -/
def relativeTo (p base : Path) : Path :=
  if p.isAbsolute = base.isAbsolute then
    match stepsFrom base.components p.components with
    | some steps => ofComponents steps
    | none => p
  else p

end Path

end NinjaGen
