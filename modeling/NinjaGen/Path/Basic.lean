/-!
# Paths

A path is a text, kept as it was written. What it names is its list of *components*: repeated and
trailing slashes separate nothing, and `.` counts only at the start of a relative path, while `..`
is kept. Two spellings name the same path when their components agree (`Path.same`).

* `Path.components` reads a text, and `Path.ofComponents` writes components as a text.
* `Path.join` continues one path by another; an absolute second path stands alone.
* `Path.startsWith` compares components, so `build` is no start of `buildx`.
* `Path.fileName?` and `Path.extension?` describe the last component.
-/

namespace NinjaGen

/-! ## Components -/

/-- A step of a path. -/
inductive Component
  /-- The root directory, at the start of an absolute path. -/
  | root
  /-- The directory itself, at the start of a relative path. -/
  | current
  /-- The directory above. -/
  | parent
  /-- The entry of that name. -/
  | normal (name : String)
  deriving DecidableEq, Repr

instance : LawfulBEq (List Component) := inferInstance

namespace Component

/-- The text of a component. -/
def text : Component → String
  | root => "/"
  | current => "."
  | parent => ".."
  | normal name => name

/-- The component that a piece between two slashes stands for; an empty piece and `.` stand for
none. -/
def ofPiece? (piece : List Char) : Option Component :=
  if piece = [] ∨ piece = ['.'] then none
  else if piece = ['.', '.'] then some parent
  else some (normal (String.ofList piece))

theorem ofPiece?_ne_current (piece : List Char) : ofPiece? piece ≠ some current := by
  unfold ofPiece?
  split
  · simp
  · split <;> simp

theorem ofPiece?_ne_root (piece : List Char) : ofPiece? piece ≠ some root := by
  unfold ofPiece?
  split
  · simp
  · split <;> simp

end Component

/-! ## Paths and their components -/

/-- A path, as it was written. -/
structure Path where
  /-- The text of the path. -/
  text : String
  deriving DecidableEq, Repr, Inhabited

namespace Path

/-- The texts between the slashes of a path. -/
def pieces (p : Path) : List (List Char) := p.text.toList.splitOn '/'

/-- Whether the path starts at the root directory. -/
def isAbsolute (p : Path) : Bool := p.text.toList.head? = some '/'

/-- The components of a path. -/
def components (p : Path) : List Component :=
  if p.isAbsolute then .root :: p.pieces.filterMap Component.ofPiece?
  else
    match p.pieces with
    | ['.'] :: rest => .current :: rest.filterMap Component.ofPiece?
    | pieces => pieces.filterMap Component.ofPiece?

/-- Two spellings of one path. -/
def same (p q : Path) : Bool := p.components = q.components

theorem same_iff {p q : Path} : p.same q = true ↔ p.components = q.components := by
  simp [same]

theorem same_refl (p : Path) : p.same p = true := same_iff.2 rfl

/-- Whether `start` is the path itself or one of the directories above it. -/
def startsWith (p start : Path) : Bool := start.components.isPrefixOf p.components

theorem startsWith_iff {p start : Path} :
    p.startsWith start = true ↔ start.components <+: p.components := by
  simp [startsWith]

/-! ## Building paths -/

/-- `p` continued by `q`: an absolute `q` replaces `p`, and a slash is put between them unless `p`
is empty or ends in one. -/
def join (p q : Path) : Path :=
  if q.isAbsolute then q
  else if p.text.toList = [] ∨ p.text.toList.getLast? = some '/' then ⟨p.text ++ q.text⟩
  else ⟨p.text ++ "/" ++ q.text⟩

/-- The path that goes through the components one after another. -/
def ofComponents (cs : List Component) : Path :=
  cs.foldl (fun p c => p.join ⟨c.text⟩) ⟨""⟩

/-- The path respelled from its components without `.`. -/
def withoutCurrent (p : Path) : Path :=
  ofComponents (p.components.filter (· ≠ .current))

/-! ## The last component -/

/-- The last text between slashes that is not empty. -/
def lastPiece? (p : Path) : Option (List Char) := (p.pieces.filter (· ≠ [])).getLast?

/-- The pieces without those at the end that stand for no component. -/
def trimPieces (pieces : List (List Char)) : List (List Char) :=
  (pieces.reverse.dropWhile fun piece => piece = [] || piece = ['.']).reverse

/-- The path without its last component: the directory in which it has that. -/
def directory (p : Path) : Path :=
  match trimPieces (trimPieces p.pieces).dropLast with
  | [] => ⟨if p.isAbsolute then "/" else ""⟩
  | pieces => ⟨"/".intercalate (pieces.map String.ofList)⟩

/-- The name of the entry that the path leads to, if its last component is a name. -/
def fileName? (p : Path) : Option String :=
  match p.components.getLast? with
  | some (.normal name) => some name
  | _ => none

/-- The part of a file name after its last dot. A dot in front of the whole name does not count. -/
def extensionOf? (name : List Char) : Option (List Char) :=
  let ext := (name.reverse.takeWhile (· ≠ '.')).reverse
  let stem := name.take (name.length - ext.length)
  if stem = [] ∨ stem = ['.'] then none else some ext

/-- The extension of the entry that the path leads to. -/
def extension? (p : Path) : Option String :=
  p.fileName?.bind fun name => (extensionOf? name.toList).map String.ofList

end Path

end NinjaGen
